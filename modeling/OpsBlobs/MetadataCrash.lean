import OpsBlobs.CutRun

namespace OpsBlobs.MetadataCrash

open Coroutine CutRun

abbrev Text := List Char

/-- The two files of one metadata path: the path itself and its sibling `.tmp`. -/
structure Files where
  target : Option Text
  tmp : Option Text
  deriving DecidableEq, Repr

inductive File
  | target
  | tmp
  deriving DecidableEq, Repr

def Files.content (f : Files) : File → Option Text
  | .target => f.target
  | .tmp => f.tmp

def Files.put (f : Files) (text : Option Text) : File → Files
  | .target => { f with target := text }
  | .tmp => { f with tmp := text }

abbrev Async := Coroutine Files String

section Adapter

def adapterExists (file : File) : Async Bool := do
  let f ← Coroutine.get
  pure (f.content file).isSome

def adapterRead (file : File) : Async (Option Text) := do
  let f ← Coroutine.get
  match f.content file with
  | none => throw "ENOENT"
  | some text => pure (some text)

/-- The file is truncated and grows to `data`; a crash may leave it anywhere on the way. -/
def adapterWrite (file : File) (data : Text) : Async Unit := do
  forEach (fun n => modify fun f => f.put (some (data.take n)) file) (List.range data.length)
  modify fun f => f.put (some data) file

def adapterAppend (file : File) (data : Text) : Async Unit := do
  let f ← Coroutine.get
  let old := (f.content file).getD []
  forEach (fun n => modify fun f => f.put (some (old ++ data.take n)) file)
    (List.range data.length)
  modify fun f => f.put (some (old ++ data)) file

def adapterRemove (file : File) : Async Unit := do
  let f ← Coroutine.get
  if (f.content file).isNone then throw "ENOENT"
  else modify fun f => f.put none file

/-- Some platforms refuse to rename over a file. -/
def adapterRename : Async Unit := do
  let f ← Coroutine.get
  if f.tmp.isNone ∨ f.target.isSome then throw "rename"
  else modify fun f => ⟨f.tmp, none⟩

end Adapter

section Store

def read : Async (Option Text) := do
  if ← adapterExists .target then adapterRead .target
  else if ← adapterExists .tmp then adapterRead .tmp
  else pure none

def write (data : Text) : Async Unit := do
  adapterWrite .tmp data
  if ← adapterExists .target then adapterRemove .target
  adapterRename

def append (data : Text) : Async Unit := adapterAppend .target data

def remove : Async Unit := adapterRemove .target

inductive Operation
  | read
  | write (data : Text)
  | append (data : Text)
  | remove
  deriving DecidableEq, Repr

/-- An operation, with what it reads. -/
def perform : Operation → Async (Option Text)
  | .read => read
  | .write data => do
      write data
      pure none
  | .append data => do
      append data
      pure none
  | .remove => do
      remove
      pure none

end Store

section Runs

/-- How an operation ended: with a result, with an error, or where the process was killed. -/
inductive Outcome
  | resolved (result : Option Text)
  | failed
  | crashed
  deriving DecidableEq, Repr

def Ends (f : Files) (op : Operation) : Outcome → Files → Prop
  | .resolved result, f' => run (perform op) f = some (.ok result, f')
  | .failed, f' => ∃ e, run (perform op) f = some (.error e, f')
  | .crashed, f' => Passes (perform op) f f'

/-- One operation after the other, with restarts where one was killed; every step meets `C`. -/
inductive Runs (C : Files → Operation → Files → Prop) (start : Files) :
    List (Operation × Outcome) → Files → Prop
  | start : Runs C start [] start
  | step {events : List (Operation × Outcome)} {f f' : Files} {op : Operation} {o : Outcome}
      (h : Runs C start events f) (hends : Ends f op o f') (hC : C f op f') :
      Runs C start (events ++ [(op, o)]) f'

/-- What a file of metadata may hold behind an operation, by what it held before. One that was
killed has done all or nothing, but for an append, of which a part may stand. -/
inductive Explains (v : Option Text) : Operation → Outcome → Option Text → Prop
  | read : Explains v .read (.resolved v) v
  | write (data : Text) : Explains v (.write data) (.resolved none) (some data)
  | append (data : Text) : Explains v (.append data) (.resolved none) (some (v.getD [] ++ data))
  | remove : Explains v .remove (.resolved none) none
  | failed (op : Operation) : Explains v op .failed v
  | lost (op : Operation) : Explains v op .crashed v
  | written (data : Text) : Explains v (.write data) .crashed (some data)
  | torn (data : Text) (n : Nat) :
      Explains v (.append data) .crashed (some (v.getD [] ++ data.take n))
  | removed : Explains v .remove .crashed none

inductive Explained (start : Option Text) : List (Operation × Outcome) → Option Text → Prop
  | start : Explained start [] start
  | step {events : List (Operation × Outcome)} {v v' : Option Text} {op : Operation} {o : Outcome}
      (h : Explained start events v) (hstep : Explains v op o v') :
      Explained start (events ++ [(op, o)]) v'

/-- No crash falls inside the write of the temporary file while there is no target, nothing is
appended while only a temporary file has the contents, and nothing is removed while a temporary
file is left. -/
def Careful (f : Files) (op : Operation) (f' : Files) : Prop :=
  f' = f ∨
    match op with
    | .read => True
    | .write data => f.target.isSome ∨ f'.tmp = some data ∨ f'.target = some data
    | .append _ => f.target.isSome ∨ f.tmp = none ∨ f.tmp = some []
    | .remove => f.tmp = none

/-- What `read` returns. -/
def value (f : Files) : Option Text := f.target.or f.tmp

end Runs

section Steps

variable {f f' : Files} {data : Text} {o : Outcome}

theorem run_read (f : Files) : run read f = some (.ok (value f), f) := by
  obtain ⟨target, tmp⟩ := f
  cases target <;> cases tmp <;> rfl

theorem run_prefixes (g : Nat → Files → Files) (l : List Nat) (f : Files) :
    run (forEach (fun n => modify (g n)) l : Async Unit) f =
      some (.ok (), l.foldl (fun f n => g n f) f) := by
  induction l generalizing f with
  | nil => rfl
  | cons n l ih => exact ih (g n f)

theorem put_foldl_put (file : File) (texts : Nat → Option Text) (l : List Nat) (text : Option Text) :
    (l.foldl (fun f n => f.put (texts n) file) f).put text file = f.put text file := by
  induction l generalizing f with
  | nil => rfl
  | cons n l ih =>
      rw [List.foldl_cons, ih]
      cases file <;> rfl

theorem run_adapterWrite (file : File) : run (adapterWrite file data) f =
    some (.ok (), f.put (some data) file) := by
  rw [adapterWrite, run_bind, run_prefixes, Option.bind_some, resume_ok, run_modify, put_foldl_put]

theorem run_write : run (write data) f = some (.ok (), ⟨some data, none⟩) := by
  rw [write, run_bind, run_adapterWrite]
  obtain ⟨target, tmp⟩ := f
  cases target <;> rfl

theorem run_append : run (append data) f =
    some (.ok (), { f with target := some (f.target.getD [] ++ data) }) := by
  rw [append, adapterAppend, run_bind, run_get, Option.bind_some, resume_ok, run_bind, run_prefixes,
    Option.bind_some, resume_ok, run_modify, put_foldl_put]
  rfl

theorem run_remove : run remove f =
    if f.target.isNone then some (.error "ENOENT", f) else some (.ok (), { f with target := none }) := by
  obtain ⟨target, tmp⟩ := f
  cases target <;> rfl

end Steps

section Crash

variable {f f' : Files} {data : Text}

/-- Nothing else runs, and every write leads to a state in `I`. -/
abbrev Leads {α : Type} (I : Files → Prop) (t : Async α) (Q : Except String α → Files → Prop)
    (f : Files) : Prop := wp (fun s s' => s' = s) (fun _ s' => I s') t Q f

/-- The prefixes of the text stand in the file one after the other, the last one in full. -/
theorem leads_prefixes {I : Files → Prop} {file : File} {texts : Nat → Text} {full : Text}
    {ns : List Nat} (hpart : ∀ n ∈ ns, I (f.put (some (texts n)) file))
    (hfull : I (f.put (some full) file)) :
    Leads I (forEach (fun n => modify fun f => f.put (some (texts n)) file) ns >>= fun _ =>
      modify fun f => f.put (some full) file) (fun r s => r = .ok () ∧ s = f.put (some full) file)
      f := by
  have hover : ∀ (s : Files) (text : Option Text), (∃ t, s = f.put t file) →
      s.put text file = f.put text file := by
    rintro s text ⟨t, rfl⟩
    cases file <;> rfl
  have hstart : ∃ t, f = f.put t file := ⟨f.content file, by cases file <;> rfl⟩
  refine wp_bind.2 (wp_forEach (I := fun s => ∃ t, s = f.put t file) hstart ?_ ?_)
  · intro n hn s hs
    have hput : s.put (some (texts n)) file = f.put (some (texts n)) file := hover s _ hs
    refine ⟨?_, _, hput⟩
    change I (s.put (some (texts n)) file)
    rw [hput]
    exact hpart n hn
  · intro s hs
    have hput : s.put (some full) file = f.put (some full) file := hover s _ hs
    refine ⟨?_, rfl, hput⟩
    change I (s.put (some full) file)
    rw [hput]
    exact hfull

/-- What a killed write leaves: the target as it was beside some of the temporary file, all of
that file alone, or the target in full. -/
def WriteLeaves (f : Files) (data : Text) (s : Files) : Prop :=
  s.target = f.target ∧ (s.tmp = f.tmp ∨ ∃ n, s.tmp = some (data.take n)) ∨
    s.target = none ∧ s.tmp = some data ∨ s.target = some data

theorem writeLeaves_of_passes (h : Passes (perform (.write data)) f f') :
    WriteLeaves f data f' := by
  refine inv_of_wp (I := WriteLeaves f data) ?_ (Or.inl ⟨rfl, Or.inl rfl⟩) h
  have hpart : ∀ n ∈ List.range data.length, WriteLeaves f data (f.put (some (data.take n)) .tmp) :=
    fun n _ => Or.inl ⟨rfl, Or.inr ⟨n, rfl⟩⟩
  have hfull : WriteLeaves f data (f.put (some data) .tmp) :=
    Or.inl ⟨rfl, Or.inr ⟨data.length, by rw [List.take_length]; rfl⟩⟩
  have hbare : WriteLeaves f data ⟨none, some data⟩ := Or.inr (Or.inl ⟨rfl, rfl⟩)
  have hdone : WriteLeaves f data ⟨some data, none⟩ := Or.inr (Or.inr rfl)
  refine wp_bind.2 (wp_bind.2 (wp_mono ?_ (leads_prefixes hpart hfull)))
  rintro _ s ⟨rfl, rfl⟩
  obtain ⟨target, tmp⟩ := f
  cases target with
  | none => exact ⟨hdone, hdone⟩
  | some old => exact ⟨hbare, hdone, hdone⟩

theorem appendLeaves_of_passes (h : Passes (perform (.append data)) f f') :
    f' = f ∨ ∃ n, f' = { f with target := some (f.target.getD [] ++ data.take n) } := by
  let I : Files → Prop := fun s =>
    s = f ∨ ∃ n, s = { f with target := some (f.target.getD [] ++ data.take n) }
  refine inv_of_wp (I := I) ?_ (Or.inl rfl) h
  have hpart : ∀ n ∈ List.range data.length,
      I (f.put (some (f.target.getD [] ++ data.take n)) .target) := fun n _ => Or.inr ⟨n, rfl⟩
  have hfull : I (f.put (some (f.target.getD [] ++ data)) .target) :=
    Or.inr ⟨data.length, by rw [List.take_length]; rfl⟩
  refine wp_bind.2 (wp_mono ?_ (leads_prefixes hpart hfull))
  rintro _ s ⟨rfl, rfl⟩
  exact hfull

theorem removeLeaves_of_passes (h : Passes (perform .remove) f f') :
    f' = f ∨ f' = { f with target := none } := by
  let I : Files → Prop := fun s => s = f ∨ s = { f with target := none }
  refine inv_of_wp (I := I) ?_ (Or.inl rfl) h
  obtain ⟨target, tmp⟩ := f
  cases target with
  | none => exact Or.inl rfl
  | some old => exact ⟨Or.inr rfl, Or.inr rfl⟩

theorem readLeaves_of_passes (h : Passes (perform .read) f f') : f' = f := by
  refine inv_of_wp (I := fun s => s = f) ?_ rfl h
  obtain ⟨target, tmp⟩ := f
  cases target <;> cases tmp <;> exact rfl

end Crash

section Explain

variable {f f' : Files} {op : Operation} {o : Outcome}

theorem explains_of_crash (h : Passes (perform op) f f') (hC : Careful f op f') :
    Explains (value f) op .crashed (value f') := by
  rcases hC with rfl | hC
  · exact .lost op
  cases op with
  | read =>
      rw [readLeaves_of_passes h]
      exact .lost .read
  | write data =>
      obtain ⟨target, tmp⟩ := f
      obtain ⟨target', tmp'⟩ := f'
      have hdone : target' = some data →
          Explains (value ⟨target, tmp⟩) (.write data) .crashed (value ⟨target', tmp'⟩) := by
        rintro rfl
        exact .written data
      rcases writeLeaves_of_passes h with ⟨htarget, -⟩ | ⟨htarget, htmp⟩ | hfull
      · cases target with
        | some old =>
            obtain rfl : target' = some old := htarget
            exact .lost _
        | none =>
            obtain rfl : target' = none := htarget
            rcases hC with hC | hC | hC
            · cases hC
            · obtain rfl : tmp' = some data := hC
              exact .written data
            · cases hC
      · obtain rfl : target' = none := htarget
        obtain rfl : tmp' = some data := htmp
        exact .written data
      · exact hdone hfull
  | append data =>
      rcases appendLeaves_of_passes h with rfl | ⟨n, rfl⟩
      · exact .lost _
      obtain ⟨target, tmp⟩ := f
      cases target with
      | some old => exact .torn data n
      | none =>
          rcases hC with hC | hC | hC
          · cases hC
          · obtain rfl : tmp = none := hC
            exact .torn data n
          · obtain rfl : tmp = some [] := hC
            exact .torn data n
  | remove =>
      rcases removeLeaves_of_passes h with rfl | rfl
      · exact .lost _
      obtain ⟨target, tmp⟩ := f
      obtain rfl : tmp = none := hC
      exact .removed

theorem run_perform (op : Operation) (f : Files) : run (perform op) f =
    match op with
    | .read => some (.ok (value f), f)
    | .write data => some (.ok none, ⟨some data, none⟩)
    | .append data => some (.ok none, { f with target := some (f.target.getD [] ++ data) })
    | .remove =>
        if f.target.isNone then some (.error "ENOENT", f)
        else some (.ok none, { f with target := none }) := by
  cases op with
  | read => exact run_read f
  | write data =>
      rw [perform, run_bind, run_write]
      rfl
  | append data =>
      rw [perform, run_bind, run_append]
      rfl
  | remove =>
      rw [perform, run_bind, run_remove]
      split <;> rfl

theorem explains_of_ends (h : Ends f op o f') (hC : Careful f op f') :
    Explains (value f) op o (value f') := by
  cases o with
  | crashed => exact explains_of_crash h hC
  | failed =>
      obtain ⟨e, h⟩ := h
      rw [run_perform] at h
      cases op with
      | read => cases h
      | write data => cases h
      | append data => cases h
      | remove =>
          dsimp only at h
          split at h
          · cases h
            exact .failed _
          · cases h
  | resolved result =>
      rw [Ends, run_perform] at h
      cases op with
      | read =>
          cases h
          exact .read
      | write data =>
          cases h
          exact .write data
      | append data =>
          cases h
          obtain ⟨target, tmp⟩ := f
          cases target with
          | some old => exact .append data
          | none =>
              rcases hC with hC | hC | hC | hC
              · cases hC
              · cases hC
              · obtain rfl : tmp = none := hC
                exact .append data
              · obtain rfl : tmp = some [] := hC
                exact .append data
      | remove =>
          dsimp only at h
          split at h
          · cases h
          · rename_i hsome
            cases h
            obtain ⟨target, tmp⟩ := f
            rcases hC with hC | hC
            · cases hC
              exact absurd rfl hsome
            · obtain rfl : tmp = none := hC
              exact .remove

/-- What is read back after a run without such a step is what the run explains. -/
theorem read_explained {start : Option Text} {events : List (Operation × Outcome)} {f : Files}
    (h : Runs Careful ⟨start, none⟩ events f) :
    ∃ result, run read f = some (.ok result, f) ∧ Explained start events result := by
  refine ⟨value f, run_read f, ?_⟩
  induction h with
  | start =>
      have hvalue : value ⟨start, none⟩ = start := Option.or_none
      rw [hvalue]
      exact .start
  | step _ hends hC ih => exact .step ih (explains_of_ends hends hC)

/-- A killed write that came to nothing, then a write, an append, a removal and a read. -/
theorem read_explained_rewritten :
    ∃ result, run read ⟨none, none⟩ = some (.ok result, ⟨none, none⟩) ∧
      Explained (some ['a']) [(.write ['b'], .crashed), (.write ['c'], .resolved none),
        (.append ['d'], .resolved none), (.remove, .resolved none), (.read, .resolved none)]
        result := by
  have hcut : Passes (perform (.write ['b'])) ⟨some ['a'], none⟩ ⟨some ['a'], some []⟩ :=
    .read (.write (.here _ _))
  have hkilled : Runs Careful ⟨some ['a'], none⟩ [(.write ['b'], .crashed)] ⟨some ['a'], some []⟩ :=
    .step .start hcut (Or.inr (Or.inl rfl))
  have hwrite : Ends ⟨some ['a'], some []⟩ (.write ['c']) (.resolved none) ⟨some ['c'], none⟩ := rfl
  have happend : Ends ⟨some ['c'], none⟩ (.append ['d']) (.resolved none)
      ⟨some ['c', 'd'], none⟩ := rfl
  have hremove : Ends ⟨some ['c', 'd'], none⟩ .remove (.resolved none) ⟨none, none⟩ := rfl
  have hread : Ends ⟨none, none⟩ .read (.resolved none) ⟨none, none⟩ := rfl
  exact read_explained ((((hkilled.step hwrite (Or.inr (Or.inl rfl))).step happend
    (Or.inr (Or.inl rfl))).step hremove (Or.inr rfl)).step hread (Or.inl rfl))

section Inversion

variable {v v' result : Option Text} {data : Text}

theorem explains_append (h : Explains v (.append data) (.resolved result) v') :
    v' = some (v.getD [] ++ data) := by
  cases h
  rfl

theorem explains_remove (h : Explains v .remove (.resolved result) v') : v' = none := by
  cases h
  rfl

theorem explains_killed_write (h : Explains v (.write data) .crashed v') :
    v' = v ∨ v' = some data := by
  cases h with
  | lost => exact Or.inl rfl
  | written => exact Or.inr rfl

end Inversion

/-- A step that resolves, or a killed write that shows, is explained only if it is careful. -/
theorem careful_of_explains (h : Ends f op o f')
    (hcrash : o = .crashed → (∃ data, op = .write data) ∧ value f' ≠ value f)
    (he : Explains (value f) op o (value f')) : Careful f op f' := by
  obtain ⟨target, tmp⟩ := f
  cases o with
  | failed =>
      obtain ⟨e, h⟩ := h
      rw [run_perform] at h
      cases op with
      | remove =>
          dsimp only at h
          split at h <;> cases h
          exact Or.inl rfl
      | _ => cases h
  | crashed =>
      obtain ⟨⟨data, rfl⟩, hne⟩ := hcrash rfl
      obtain ⟨target', tmp'⟩ := f'
      have hvalue : value ⟨target', tmp'⟩ = some data := (explains_killed_write he).resolve_left hne
      cases target' with
      | none => exact Or.inr (Or.inr (Or.inl hvalue))
      | some text => exact Or.inr (Or.inr (Or.inr hvalue))
  | resolved result =>
      rw [Ends, run_perform] at h
      cases op with
      | read => exact Or.inr trivial
      | write data =>
          cases h
          exact Or.inr (Or.inr (Or.inr rfl))
      | append data =>
          cases h
          cases target with
          | some old => exact Or.inr (Or.inl rfl)
          | none =>
              cases tmp with
              | none => exact Or.inr (Or.inr (Or.inl rfl))
              | some text =>
                  -- the text in the temporary file is hidden, so it was empty
                  have htext : some data = some (text ++ data) := explains_append he
                  have hnil : text = [] := List.self_eq_append_left.1 (Option.some.inj htext)
                  exact Or.inr (Or.inr (Or.inr (congrArg some hnil)))
      | remove =>
          dsimp only at h
          split at h
          · cases h
          · cases h
            exact Or.inr (explains_remove he)

theorem explained_nil {start v : Option Text} (h : Explained start [] v) : v = start := by
  generalize hev : ([] : List (Operation × Outcome)) = events at h
  cases h with
  | start => rfl
  | step _ _ => exact absurd hev (by simp)

/-- The first write of a file is killed halfway, and its torn temporary file is read back. -/
theorem read_not_explained :
    ¬ ∀ (start : Option Text) (events : List (Operation × Outcome)) (f : Files),
      Runs (fun _ _ _ => True) ⟨start, none⟩ events f →
        ∃ result, run read f = some (.ok result, f) ∧ Explained start events result := by
  intro h
  have hpass : Passes (perform (.write ['a', 'b'])) ⟨none, none⟩ ⟨none, some ['a']⟩ :=
    .read (.write (.read (.write (.here _ _))))
  obtain ⟨result, hread, hexp⟩ := h none [(.write ['a', 'b'], .crashed)] ⟨none, some ['a']⟩
    (.step .start hpass trivial)
  rw [run_read] at hread
  cases hread
  generalize hev : [(Operation.write ['a', 'b'], Outcome.crashed)] = events at hexp
  generalize hv : value ⟨none, some ['a']⟩ = v at hexp
  cases hexp with
  | start => cases hev
  | step hbefore hstep =>
      rw [← List.nil_append [(Operation.write ['a', 'b'], Outcome.crashed)]] at hev
      obtain ⟨rfl, hlast⟩ := List.append_inj' hev rfl
      cases hlast
      rw [explained_nil hbefore] at hstep
      rcases explains_killed_write hstep with he | he
      · exact absurd (hv.trans he) (by decide)
      · exact absurd (hv.trans he) (by decide)

end Explain

end OpsBlobs.MetadataCrash
