import OpsBlobs.LocalHistory
import OpsBlobs.OpIdentity

namespace OpsBlobs.LocalChain

open Types Operations Hlc HlcSession OpIdentity FileRegistry World LocalHistory

section Chain

/-- The versions a file stands on: both heads of an open conflict, the head otherwise. -/
def heads : Option FileEntry → List String
  | none => []
  | some e => if e.TwoHeaded then e.conflictParents.getD [] else e.head.toList

/-- A create that brings a file back starts anew. -/
structure Rebirth (n : Note) : Prop where
  type : n.op.type = .create
  parents : n.op.parents = []
  dead : ∀ e, n.found = some e → e.deleted = true

/-- One chain: each op was made on the version before it, which it has for its only parent.
Only the op of a file that was gone has none. -/
def Linear : List String → List Note → Prop
  | _, [] => True
  | prev, n :: rest =>
      heads n.found = prev ∧ (n.op.parents = prev ∨ Rebirth n) ∧ Linear [n.op.id] rest

/-- Where such a chain ends. -/
def tip (prev : List String) (notes : List Note) : List String :=
  match notes.getLast? with
  | none => prev
  | some n => [n.op.id]

/-- No two ops share a parent. -/
def Apart (notes : List Note) : Prop :=
  notes.Pairwise fun m n => ∀ v ∈ m.op.parents, v ∉ n.op.parents

variable {prev : List String} {notes : List Note} {n : Note}

theorem tip_cons : tip prev (n :: notes) = tip [n.op.id] notes := by
  rw [tip, tip, List.getLast?_cons]
  cases notes.getLast? with
  | none => rfl
  | some m => rfl

theorem linear_append (h : Linear prev notes) (hfound : heads n.found = tip prev notes)
    (hparents : n.op.parents = tip prev notes ∨ Rebirth n) : Linear prev (notes ++ [n]) := by
  induction notes generalizing prev with
  | nil => exact ⟨hfound, hparents, trivial⟩
  | cons m rest ih =>
      rw [tip_cons] at hfound hparents
      exact ⟨h.1, h.2.1, ih h.2.2 hfound hparents⟩

theorem parents_of_linear (h : Linear prev notes) (hn : n ∈ notes) {v : String}
    (hv : v ∈ n.op.parents) : v ∈ prev ∨ v ∈ notes.map (·.op.id) := by
  induction notes generalizing prev with
  | nil => cases hn
  | cons m rest ih =>
      rcases List.mem_cons.1 hn with rfl | hn
      · rcases h.2.1 with hp | hr
        · exact Or.inl (hp ▸ hv)
        · cases hr.parents ▸ hv
      · rcases ih h.2.2 hn with hv | hv
        · exact Or.inr (List.mem_singleton.1 hv ▸ List.mem_cons_self)
        · exact Or.inr (List.mem_cons_of_mem _ hv)

/-- Along one chain every version is built on once. -/
theorem apart_of_linear (h : Linear prev notes) (hids : (notes.map (·.op.id)).Nodup)
    (hnew : ∀ n ∈ notes, n.op.id ∉ prev) : Apart notes := by
  induction notes generalizing prev with
  | nil => exact .nil
  | cons m rest ih =>
      have hids' := List.nodup_cons.1 hids
      refine .cons ?_ (ih h.2.2 hids'.2 fun n hn hmem => ?_)
      · intro n hn v hm hv
        have hprev : v ∈ prev := by
          rcases h.2.1 with hp | hr
          · exact hp ▸ hm
          · cases hr.parents ▸ hm
        have hlater : v = m.op.id ∨ v ∈ rest.map (·.op.id) := by
          rcases parents_of_linear h.2.2 hn hv with hv | hv
          · exact Or.inl (List.mem_singleton.1 hv)
          · exact Or.inr hv
        rcases hlater with rfl | hv
        · exact hnew m List.mem_cons_self hprev
        · obtain ⟨n', hn', rfl⟩ := List.mem_map.1 hv
          exact hnew n' (List.mem_cons_of_mem _ hn') hprev
      · exact hids'.1 (List.mem_map.2 ⟨n, hn, List.mem_singleton.1 hmem⟩)

end Chain

section Orderly

/-- Only the save that resolves a conflict builds on a two-headed file, and a first version is
recorded only of a file that is gone or has none. -/
def Fair (x : Hold) : Prop :=
  match x.use, x.found with
  | .resolve, _ | _, none => True
  | .next, some e => ¬ e.TwoHeaded
  | .first, some e => ¬ e.TwoHeaded ∧ (e.deleted = true ∨ e.head = none)

instance (x : Hold) : Decidable (Fair x) := by
  unfold Fair
  split <;> infer_instance

/-- No two handlers have read the heads of one file and not advanced them. -/
def Orderly (h : History) : Prop := (h.holds.map (·.fileId)).Nodup ∧ ∀ x ∈ h.holds, Fair x

instance (h : History) : Decidable (Orderly h) := inferInstanceAs (Decidable (_ ∧ _))

/-- The condition on a write: it leaves the handlers in order. -/
def Meets (_ s' : World × History) : Prop := Orderly s'.2

instance : DecidableRel Meets := fun _ s' => inferInstanceAs (Decidable (Orderly s'.2))

theorem eq_of_fileId {h : History} (ho : Orderly h) {x y : Hold} (hx : x ∈ h.holds)
    (hy : y ∈ h.holds) (hf : x.fileId = y.fileId) : x = y :=
  List.inj_on_of_nodup_map ho.1 hx hy hf

end Orderly

section Own

variable {h : History} {k j : Nat} {x y : Hold} {op : Operation}

theorem mem_own : x ∈ h.own k ↔ x ∈ h.holds ∧ x.ticket = k := by
  simp [History.own]

theorem own_eq_nil : h.own k = [] ↔ ∀ x ∈ h.holds, x.ticket ≠ k := by
  simp [History.own, List.filter_eq_nil_iff]

theorem eq_of_own (hown : h.own k = [x]) (hy : y ∈ h.holds) (ht : y.ticket = k) : y = x :=
  List.mem_singleton.1 (hown ▸ mem_own.2 ⟨hy, ht⟩)

theorem mem_of_own (hown : h.own k = [x]) : x ∈ h.holds ∧ x.ticket = k :=
  mem_own.1 (hown ▸ List.mem_cons_self)

theorem own_take (x : Hold) :
    (h.take x).own k = if x.ticket = k then x :: h.own k else h.own k := by
  simp only [History.own, History.take, List.filter_cons, decide_eq_true_eq]

theorem own_release_self : (h.release k).own k = [] := by
  rw [own_eq_nil]
  intro x hx
  exact of_decide_eq_true (List.mem_filter.1 hx).2

theorem own_release (hj : j ≠ k) : (h.release k).own j = h.own j := by
  rw [History.own, History.own, History.release, List.filter_filter]
  refine List.filter_congr fun x _ => ?_
  by_cases hx : x.ticket = j
  · simp [hx, hj]
  · simp [hx]

theorem noteOf_eq (hown : h.own k = [x]) : h.noteOf k op = ⟨op, x.found⟩ := by
  rw [History.noteOf, hown]
  rfl

theorem filter_marked (note : Note) (l : List Hold) :
    (l.map fun x => if x.ticket = k then { x with noted := some note } else x).filter
        (fun x => x.ticket = j) =
      (l.filter fun x => x.ticket = j).map fun x =>
        if j = k then { x with noted := some note } else x := by
  induction l with
  | nil => rfl
  | cons x rest ih =>
      rw [List.map_cons, List.filter_cons, List.filter_cons, ih]
      by_cases hk : x.ticket = k
      · by_cases hj : j = k
        · simp [hk, hj]
        · simp [hk, hj, Ne.symm hj]
      · by_cases hj : x.ticket = j
        · simp [hj, hj ▸ hk]
        · simp [hk, hj]

theorem own_record (hj : j ≠ k) : (h.record k op).own j = h.own j := by
  rw [History.own, History.record, filter_marked]
  simp only [if_neg hj, List.map_id']
  rfl

theorem own_record_self (hown : h.own k = [x]) :
    (h.record k op).own k = [{ x with noted := some ⟨op, x.found⟩ }] := by
  rw [History.own, History.record, filter_marked, noteOf_eq hown]
  change (h.own k).map _ = _
  rw [hown]
  simp only [if_pos, List.map_cons, List.map_nil]

/-- A record leaves the other holds as they were. -/
theorem mem_record (hown : h.own k = [x]) (hy : y ∈ (h.record k op).holds) :
    y ∈ h.holds ∧ y.ticket ≠ k ∨ y = { x with noted := some ⟨op, x.found⟩ } := by
  by_cases ht : y.ticket = k
  · exact Or.inr (eq_of_own (own_record_self hown) hy ht)
  · obtain ⟨z, hz, rfl⟩ := List.mem_map.1 hy
    by_cases hzt : z.ticket = k
    · exact absurd (by rw [if_pos hzt]; exact hzt) ht
    · rw [if_neg hzt]
      exact Or.inl ⟨hz, hzt⟩

theorem notesOf_record (hown : h.own k = [x]) (f : String) :
    (h.record k op).notesOf f =
      if op.fileId = f then h.notesOf f ++ [⟨op, x.found⟩] else h.notesOf f := by
  rw [History.notesOf, History.record, noteOf_eq hown, List.filter_append]
  split
  · rename_i hf
    rw [List.filter_singleton, decide_eq_true hf]
    rfl
  · rename_i hf
    rw [List.filter_singleton, decide_eq_false hf]
    exact List.append_nil _

end Own

section Invariant

def headsAt (w : World) (f : String) : List String := heads (w.registry.getById f)

/-- The ops that take the head of their file; a move does not. -/
def versions (ops : List Operation) : List Operation := ops.filter (fun op => op.type ≠ .move)

/-- How the registry, the log and the history stand to each other. -/
structure Linked (w₀ w : World) (h : History) : Prop where
  orderly : Orderly h
  recorded : versions w.log.recorded = versions w₀.log.recorded ++ h.notes.map (·.op)
  linear : ∀ f, Linear (headsAt w₀ f) (h.notesOf f)
  settled : ∀ f, (∀ x ∈ h.holds, x.fileId = f → x.noted = none) →
    headsAt w f = tip (headsAt w₀ f) (h.notesOf f)
  fresh : ∀ x ∈ h.holds, x.noted = none → heads x.found = headsAt w x.fileId
  noted : ∀ x ∈ h.holds, ∀ n, x.noted = some n → (h.notesOf x.fileId).getLast? = some n

/-- Which ids are taken, and which the clock has yet to give out. -/
structure Stamped (w₀ w : World) (h : History) : Prop where
  past : ∀ i ∈ h.issued, logicalTime i.2 ≤ logicalTime w.hlc
  nodup : (h.issued.map Prod.snd).Nodup
  unused : ∀ i ∈ h.issued, ∀ n ∈ h.notes, n.op.id ≠ hlcToString i.2
  unknown : ∀ i ∈ h.issued, ∀ f, hlcToString i.2 ∉ headsAt w₀ f
  known : ∀ n ∈ h.notes,
    IsContent n.op ∧ logicalTime n.op.hlcTimestamp ≤ logicalTime w.hlc ∨ IsMerge n.op
  before : ∀ f, ∀ c, hlcToString c ∈ headsAt w₀ f → logicalTime c ≤ logicalTime w.hlc
  distinct : ∀ f, ((h.notesOf f).map (·.op.id)).Nodup
  new : ∀ f, ∀ n ∈ h.notesOf f, n.op.id ∉ headsAt w₀ f

structure Inv (w₀ : World) (s : World × History) : Prop where
  linked : Linked w₀ s.1 s.2
  stamped : Stamped w₀ s.1 s.2

/-- What handler `k` counts on while the others run. -/
structure Keeps (k : Nat) (s s' : World × History) : Prop where
  own : s'.2.own k = s.2.own k
  issued : ∀ c, (k, c) ∈ s.2.issued → (k, c) ∈ s'.2.issued
  entries : ∀ f e, s.1.registry.getById f = some e → ∃ e', s'.1.registry.getById f = some e' ∧
    (e'.conflictParents = e.conflictParents ∨ e'.conflictParents = none) ∧
    (f ∈ (s.2.own k).map (·.fileId) → e'.headVersionId = e.headVersionId)

/-- What the handlers agree on. -/
def rules (w₀ : World) : TaskPool.Protocol (World × History) where
  inv := Inv w₀
  keeps k s s' := Keeps k s s' ∧ (Inv w₀ s → Inv w₀ s')
  done k s := s.2.own k = []

variable {w₀ w w' : World} {h h' : History} {s s' s'' : World × History} {k j : Nat} {x : Hold}

theorem keeps_refl (k : Nat) (s : World × History) : Keeps k s s :=
  ⟨rfl, fun _ h => h, fun _ e he => ⟨e, he, Or.inl rfl, fun _ => rfl⟩⟩

theorem keeps_trans (h : Keeps k s s') (h' : Keeps k s' s'') : Keeps k s s'' := by
  refine ⟨h'.own.trans h.own, fun c hc => h'.issued c (h.issued c hc), fun f e he => ?_⟩
  obtain ⟨e', he', hconf, hhead⟩ := h.entries f e he
  obtain ⟨e'', he'', hconf', hhead'⟩ := h'.entries f e' he'
  refine ⟨e'', he'', ?_, fun hf => (hhead' (h.own ▸ hf)).trans (hhead hf)⟩
  rcases hconf' with hconf' | hconf'
  · rw [hconf']
    exact hconf
  · exact Or.inr hconf'

theorem twoHeaded_congr {e e' : FileEntry} (hc : e'.conflictParents = e.conflictParents) :
    e'.TwoHeaded ↔ e.TwoHeaded := by
  rw [FileEntry.TwoHeaded, FileEntry.TwoHeaded, hc]

theorem not_twoHeaded_mono {e e' : FileEntry}
    (hc : e'.conflictParents = e.conflictParents ∨ e'.conflictParents = none)
    (h : ¬ e.TwoHeaded) : ¬ e'.TwoHeaded := by
  rcases hc with hc | hc
  · exact fun h' => h ((twoHeaded_congr hc).1 h')
  · rintro ⟨_, hsome, -⟩
    cases hc.symm.trans hsome

theorem heads_congr {e e' : FileEntry} (hc : e'.conflictParents = e.conflictParents)
    (hv : e'.headVersionId = e.headVersionId) : heads (some e') = heads (some e) := by
  simp only [heads, FileEntry.head, twoHeaded_congr hc, hc, hv]

theorem heads_of_not_twoHeaded {e : FileEntry} (h : ¬ e.TwoHeaded) :
    heads (some e) = e.head.toList := if_neg h

theorem heads_of_twoHeaded {e : FileEntry} {parents : List String} (h : e.TwoHeaded)
    (hp : e.conflictParents = some parents) : heads (some e) = parents := by
  rw [heads, if_pos h, hp]
  rfl

end Invariant

section Calm

/-- A write that has nothing to do with heads, versions or the clock. -/
structure Calm (w w' : World) : Prop where
  entries : ∀ f e, w.registry.getById f = some e → ∃ e', w'.registry.getById f = some e' ∧
    e'.conflictParents = e.conflictParents ∧ e'.headVersionId = e.headVersionId
  created : ∀ f, w.registry.getById f = none → headsAt w' f = []
  versions : versions w'.log.recorded = versions w.log.recorded
  clock : w'.hlc = w.hlc

variable {w₀ w w' : World} {h : History}

theorem headsAt_of_calm (hc : Calm w w') (f : String) : headsAt w' f = headsAt w f := by
  rw [headsAt, headsAt]
  cases he : w.registry.getById f with
  | none => exact hc.created f he
  | some e =>
      obtain ⟨e', he', hconf, hhead⟩ := hc.entries f e he
      rw [he']
      exact heads_congr hconf hhead

theorem linked_calm (hc : Calm w w') (hl : Linked w₀ w h) : Linked w₀ w' h where
  orderly := hl.orderly
  recorded := hc.versions.trans hl.recorded
  linear := hl.linear
  settled f hf := (headsAt_of_calm hc f).trans (hl.settled f hf)
  fresh x hx hn := (hl.fresh x hx hn).trans (headsAt_of_calm hc _).symm
  noted := hl.noted

theorem stamped_clock (hc : w'.hlc = w.hlc) (hs : Stamped w₀ w h) : Stamped w₀ w' h where
  past := hc ▸ hs.past
  nodup := hs.nodup
  unused := hs.unused
  unknown := hs.unknown
  known := hc ▸ hs.known
  before := hc ▸ hs.before
  distinct := hs.distinct
  new := hs.new

theorem inv_calm (hc : Calm w w') (hi : Inv w₀ (w, h)) : Inv w₀ (w', h) :=
  ⟨linked_calm hc hi.linked, stamped_clock hc.clock hi.stamped⟩

theorem keeps_calm (hc : Calm w w') (k : Nat) (h : History) : Keeps k (w, h) (w', h) := by
  refine ⟨rfl, fun _ hi => hi, fun f e he => ?_⟩
  obtain ⟨e', he', hconf, hhead⟩ := hc.entries f e he
  exact ⟨e', he', Or.inl hconf, fun _ => hhead⟩

end Calm

section Effects

variable {w₀ w w' : World} {h : History} {k j : Nat} {x : Hold} {op : Operation} {c : Hlc}

theorem merge_ne_stamp {op : Operation} (hm : IsMerge op) (c : Hlc) : op.id ≠ hlcToString c := by
  intro heq
  have hcontent : IsContent { op with hlcTimestamp := c } := heq
  exact not_merge_of_content hcontent hm

/-- A timestamp is taken. -/
theorem inv_issue (k : Nat) (wall reads : Nat) (hi : Inv w₀ (w, h)) :
    Inv w₀ ({ w with hlc := now w.hlc wall, wallReads := reads }, h.issue k (now w.hlc wall)) := by
  obtain ⟨hl, hs⟩ := hi
  have hlt : ∀ c : Hlc, logicalTime c ≤ logicalTime w.hlc → c ≠ now w.hlc wall := by
    rintro c hle rfl
    exact absurd (lt_now w.hlc wall) (not_lt.2 hle)
  have hle : logicalTime w.hlc ≤ logicalTime (now w.hlc wall) := (lt_now w.hlc wall).le
  refine ⟨⟨hl.orderly, hl.recorded, hl.linear, hl.settled, hl.fresh, hl.noted⟩, ?_⟩
  refine ⟨?_, ?_, ?_, ?_, ?_, ?_, hs.distinct, hs.new⟩
  · intro i hi
    rcases List.mem_cons.1 hi with rfl | hi
    · exact le_refl _
    · exact (hs.past i hi).trans hle
  · refine List.nodup_cons.2 ⟨fun hmem => ?_, hs.nodup⟩
    obtain ⟨i, hi, heq⟩ := List.mem_map.1 hmem
    exact hlt i.2 (hs.past i hi) heq
  · intro i hi n hn heq
    rcases List.mem_cons.1 hi with rfl | hi
    · rcases hs.known n hn with ⟨hc, hpast⟩ | hm
      · exact hlt _ hpast (hlcToString_inj (hc.symm.trans heq))
      · exact merge_ne_stamp hm _ heq
    · exact hs.unused i hi n hn heq
  · intro i hi f hmem
    rcases List.mem_cons.1 hi with rfl | hi
    · exact hlt _ (hs.before f _ hmem) rfl
    · exact hs.unknown i hi f hmem
  · intro n hn
    exact (hs.known n hn).imp (fun hc => ⟨hc.1, hc.2.trans hle⟩) id
  · exact fun f c hmem => (hs.before f c hmem).trans hle

theorem keeps_issue (j k : Nat) (c : Hlc) (hlc : Hlc) (reads : Nat) (w : World) (h : History) :
    Keeps j (w, h) ({ w with hlc := hlc, wallReads := reads }, h.issue k c) :=
  ⟨rfl, fun _ hi => List.mem_cons_of_mem _ hi, fun _ e he => ⟨e, he, Or.inl rfl, fun _ => rfl⟩⟩

/-- The heads of a file are read. -/
theorem inv_take (ho : Orderly (h.take x)) (hn : x.noted = none)
    (hf : heads x.found = headsAt w x.fileId) (hi : Inv w₀ (w, h)) : Inv w₀ (w, h.take x) := by
  obtain ⟨hl, hs⟩ := hi
  refine ⟨⟨ho, hl.recorded, hl.linear, ?_, ?_, ?_⟩, ?_⟩
  · exact fun f hnone => hl.settled f fun y hy => hnone y (List.mem_cons_of_mem _ hy)
  · intro y hy hnone
    rcases List.mem_cons.1 hy with rfl | hy
    · exact hf
    · exact hl.fresh y hy hnone
  · intro y hy n hsome
    rcases List.mem_cons.1 hy with rfl | hy
    · cases hn.symm.trans hsome
    · exact hl.noted y hy n hsome
  · exact ⟨hs.past, hs.nodup, hs.unused, hs.unknown, hs.known, hs.before, hs.distinct, hs.new⟩

theorem keeps_take (hj : j ≠ x.ticket) : Keeps j (w, h) (w, h.take x) :=
  ⟨(own_take x).trans (if_neg hj.symm), fun _ hi => hi,
    fun _ e he => ⟨e, he, Or.inl rfl, fun _ => rfl⟩⟩

/-- Where the id of an op comes from: a timestamp of its handler's, or the two heads that a
merge node closes. -/
def Minted (h : History) (k : Nat) (x : Hold) (op : Operation) : Prop :=
  IsContent op ∧ (k, op.hlcTimestamp) ∈ h.issued ∨
    IsMerge op ∧ 2 ≤ (heads x.found).length ∧ op.id ∉ heads x.found

/-- The op that a hold is good for. -/
structure Suits (h : History) (k : Nat) (x : Hold) (op : Operation) : Prop where
  fileId : op.fileId = x.fileId
  type : op.type ≠ .move
  parents : op.parents = heads x.found ∨ Rebirth ⟨op, x.found⟩
  minted : Minted h k x op

theorem fresh_tip (hl : Linked w₀ w h) (hown : h.own k = [x]) (hn : x.noted = none) :
    heads x.found = tip (headsAt w₀ x.fileId) (h.notesOf x.fileId) := by
  have hx := (mem_of_own hown).1
  refine (hl.fresh x hx hn).trans (hl.settled x.fileId fun y hy hf => ?_)
  rw [eq_of_fileId hl.orderly hy hx hf, hn]

/-- A file with two heads has no op of this history. -/
theorem notesOf_eq_nil {prev : List String} {notes : List Note}
    (hlen : 2 ≤ (tip prev notes).length) : notes = [] := by
  rw [tip] at hlen
  cases hlast : notes.getLast? with
  | none => exact List.getLast?_eq_none_iff.1 hlast
  | some n =>
      rw [hlast] at hlen
      exact absurd hlen (by simp)

theorem linked_record (hl : Linked w₀ w h) (hown : h.own k = [x]) (hn : x.noted = none)
    (hop : Suits h k x op) :
    Linked w₀ { w with log := OperationLogger.OpLog.push op w.log } (h.record k op) := by
  obtain ⟨hx, hticket⟩ := mem_of_own hown
  have htip := fresh_tip hl hown hn
  refine ⟨⟨?_, ?_⟩, ?_, ?_, ?_, ?_, ?_⟩
  · have hids : (h.record k op).holds.map (·.fileId) = h.holds.map (·.fileId) := by
      rw [History.record, List.map_map]
      refine List.map_congr_left fun y _ => ?_
      simp only [Function.comp_apply]
      split <;> rfl
    exact hids ▸ hl.orderly.1
  · intro y hy
    rcases mem_record hown hy with ⟨hy, -⟩ | rfl
    · exact hl.orderly.2 y hy
    · exact hl.orderly.2 x hx
  · change versions (w.log.recorded ++ [op]) = _ ++ (h.notes ++ [h.noteOf k op]).map (·.op)
    have hpush : versions [op] = [op] := List.filter_cons_of_pos (by simpa using hop.type)
    rw [versions, List.filter_append, List.map_append, ← List.append_assoc, ← hl.recorded]
    exact congrArg (_ ++ ·) hpush
  · intro f
    rw [notesOf_record hown]
    split
    · rename_i hf
      obtain rfl : x.fileId = f := hop.fileId.symm.trans hf
      exact linear_append (hl.linear _) htip (htip ▸ hop.parents)
    · exact hl.linear f
  · intro f hnone
    have hne : op.fileId ≠ f := by
      intro hf
      have hmem : { x with noted := some ⟨op, x.found⟩ } ∈ (h.record k op).holds :=
        (mem_of_own (own_record_self hown)).1
      cases hnone _ hmem (hop.fileId.symm.trans hf)
    rw [notesOf_record hown, if_neg hne]
    refine hl.settled f fun y hy hf => ?_
    by_cases ht : y.ticket = k
    · rw [eq_of_own hown hy ht]
      exact hn
    · exact hnone y (List.mem_map.2 ⟨y, hy, if_neg ht⟩) hf
  · intro y hy hnone
    rcases mem_record hown hy with ⟨hy, -⟩ | rfl
    · exact hl.fresh y hy hnone
    · cases hnone
  · intro y hy n hsome
    rw [notesOf_record hown]
    rcases mem_record hown hy with ⟨hy, ht⟩ | rfl
    · rw [if_neg]
      · exact hl.noted y hy n hsome
      · intro hf
        have heq := eq_of_fileId hl.orderly hy hx (hf.symm.trans hop.fileId)
        exact ht (heq ▸ hticket)
    · obtain rfl := Option.some.inj hsome
      rw [if_pos hop.fileId]
      exact List.getLast?_concat

theorem mem_issued_record {i : Nat × Hlc} (hi : i ∈ (h.record k op).issued) :
    i ∈ h.issued ∧ i ≠ (k, op.hlcTimestamp) :=
  (List.mem_filter.1 hi).imp_right of_decide_eq_true

/-- The timestamp that an op uses up was this handler's alone. -/
theorem ne_of_issued (hs : Stamped w₀ w h) (hmint : Minted h k x op) {i : Nat × Hlc}
    (hi : i ∈ (h.record k op).issued) : op.id ≠ hlcToString i.2 := by
  obtain ⟨hi, hne⟩ := mem_issued_record hi
  rcases hmint with ⟨hc, hmem⟩ | ⟨hm, -⟩
  · intro heq
    refine hne (List.inj_on_of_nodup_map hs.nodup hi hmem ?_)
    exact (hlcToString_inj (hc.symm.trans heq)).symm
  · exact merge_ne_stamp hm i.2

theorem stamped_record (hl : Linked w₀ w h) (hs : Stamped w₀ w h) (hown : h.own k = [x])
    (hn : x.noted = none) (hop : Suits h k x op) :
    Stamped w₀ { w with log := OperationLogger.OpLog.push op w.log } (h.record k op) := by
  have hnotes : ∀ n ∈ (h.record k op).notes, n ∈ h.notes ∨ n.op = op := by
    intro n hn
    rcases List.mem_append.1 hn with hn | hn
    · exact Or.inl hn
    · rw [List.mem_singleton.1 hn]
      exact Or.inr rfl
  have hnew : op.id ∉ (h.notesOf x.fileId).map (·.op.id) ∧ op.id ∉ headsAt w₀ x.fileId := by
    rcases hop.minted with ⟨hc, hmem⟩ | ⟨-, hlen, hout⟩
    · constructor
      · intro hid
        obtain ⟨n, hn, heq⟩ := List.mem_map.1 hid
        exact hs.unused _ hmem n (List.mem_filter.1 hn).1 (heq.trans hc)
      · rw [hc]
        exact hs.unknown _ hmem _
    · rw [fresh_tip hl hown hn] at hlen hout
      rw [notesOf_eq_nil hlen] at hout ⊢
      exact ⟨List.not_mem_nil, hout⟩
  refine ⟨?_, ?_, ?_, ?_, ?_, hs.before, ?_, ?_⟩
  · exact fun i hi => hs.past i (mem_issued_record hi).1
  · exact List.Nodup.sublist (List.filter_sublist.map Prod.snd) hs.nodup
  · intro i hi n hn
    rcases hnotes n hn with hn | hn
    · exact hs.unused i (mem_issued_record hi).1 n hn
    · rw [hn]
      exact ne_of_issued hs hop.minted hi
  · exact fun i hi => hs.unknown i (mem_issued_record hi).1
  · intro n hn
    rcases hnotes n hn with hn | hn
    · exact hs.known n hn
    · rw [hn]
      rcases hop.minted with ⟨hc, hmem⟩ | ⟨hm, -⟩
      · exact Or.inl ⟨hc, hs.past _ hmem⟩
      · exact Or.inr hm
  · intro f
    rw [notesOf_record hown]
    split
    · rename_i hf
      obtain rfl : x.fileId = f := hop.fileId.symm.trans hf
      rw [List.map_append]
      refine List.Nodup.append (hs.distinct _) (List.nodup_singleton _) ?_
      intro id hid hmem
      rw [List.mem_singleton.1 hmem] at hid
      exact hnew.1 hid
    · exact hs.distinct f
  · intro f n hmem
    rw [notesOf_record hown] at hmem
    split at hmem
    · rename_i hf
      obtain rfl : x.fileId = f := hop.fileId.symm.trans hf
      rcases List.mem_append.1 hmem with hmem | hmem
      · exact hs.new _ n hmem
      · rw [List.mem_singleton.1 hmem]
        exact hnew.2
    · exact hs.new f n hmem

/-- An op is recorded over the heads that were read. -/
theorem inv_record (hi : Inv w₀ (w, h)) (hown : h.own k = [x]) (hn : x.noted = none)
    (hop : Suits h k x op) :
    Inv w₀ ({ w with log := OperationLogger.OpLog.push op w.log }, h.record k op) :=
  ⟨linked_record hi.linked hown hn hop, stamped_record hi.linked hi.stamped hown hn hop⟩

theorem keeps_record (hj : j ≠ k) :
    Keeps j (w, h) ({ w with log := OperationLogger.OpLog.push op w.log }, h.record k op) := by
  refine ⟨own_record hj, fun c hc => ?_, fun _ e he => ⟨e, he, Or.inl rfl, fun _ => rfl⟩⟩
  refine List.mem_filter.2 ⟨hc, decide_eq_true fun heq => hj ?_⟩
  exact congrArg Prod.fst heq

/-- The entry of a file that is held, with its op recorded, may be changed. -/
theorem inv_change (hi : Inv w₀ (w, h)) (hown : h.own k = [x]) {n : Note}
    (hn : x.noted = some n) (f : FileEntry → FileEntry)
    (hf : ∀ e, (f e).id = e.id ∧ (f e).path = e.path) :
    Inv w₀ ({ w with registry := w.registry.change f hf x.fileId }, h) := by
  obtain ⟨hl, hs⟩ := hi
  have hx := (mem_of_own hown).1
  have hothers : ∀ f', x.fileId ≠ f' →
      headsAt { w with registry := w.registry.change f hf x.fileId } f' = headsAt w f' := by
    intro f' hne
    rw [headsAt, headsAt, getById, get_change, if_neg hne]
    rfl
  refine ⟨⟨hl.orderly, hl.recorded, hl.linear, ?_, ?_, hl.noted⟩, stamped_clock (w := w) rfl hs⟩
  · intro f' hnone
    have hne : x.fileId ≠ f' := fun heq => by cases hn.symm.trans (hnone x hx heq)
    exact (hothers f' hne).trans (hl.settled f' hnone)
  · intro y hy hnone
    have hne : x.fileId ≠ y.fileId := by
      intro heq
      rw [eq_of_fileId hl.orderly hx hy heq] at hn
      cases hn.symm.trans hnone
    exact (hl.fresh y hy hnone).trans (hothers _ hne).symm

theorem keeps_change (hi : Inv w₀ (w, h)) (hown : h.own k = [x]) (hj : j ≠ k)
    (f : FileEntry → FileEntry) (hf : ∀ e, (f e).id = e.id ∧ (f e).path = e.path)
    (hc : ∀ e, (f e).conflictParents = e.conflictParents ∨ (f e).conflictParents = none) :
    Keeps j (w, h) ({ w with registry := w.registry.change f hf x.fileId }, h) := by
  refine ⟨rfl, fun _ hi => hi, fun f' e he => ?_⟩
  by_cases hne : x.fileId = f'
  · refine ⟨f e, ?_, hc e, fun hmem => ?_⟩
    · rw [getById, get_change, if_pos hne]
      exact congrArg (Option.map f) he
    · obtain ⟨y, hy, hfile⟩ := List.mem_map.1 hmem
      obtain ⟨hy, ht⟩ := mem_own.1 hy
      obtain ⟨hx, htx⟩ := mem_of_own hown
      rw [eq_of_fileId hi.linked.orderly hy hx (hfile.trans hne.symm)] at ht
      exact absurd (ht.symm.trans htx) hj
  · refine ⟨e, ?_, Or.inl rfl, fun _ => rfl⟩
    rw [getById, get_change, if_neg hne]
    exact he

/-- The heads that were read are advanced. -/
theorem inv_release (hi : Inv w₀ (w, h)) (hown : h.own k = [x]) {n : Note}
    (hn : x.noted = some n) (hhead : headsAt w x.fileId = [n.op.id]) :
    Inv w₀ (w, h.release k) := by
  obtain ⟨hl, hs⟩ := hi
  have hsub : ∀ y ∈ (h.release k).holds, y ∈ h.holds := fun y hy => (List.mem_filter.1 hy).1
  refine ⟨⟨⟨?_, fun y hy => hl.orderly.2 y (hsub y hy)⟩, hl.recorded, hl.linear, ?_, ?_, ?_⟩, ?_⟩
  · exact List.Nodup.sublist (List.filter_sublist.map _) hl.orderly.1
  · intro f hnone
    by_cases hf : x.fileId = f
    · subst hf
      rw [hhead, tip]
      change _ = match (h.notesOf x.fileId).getLast? with | none => _ | some m => _
      rw [hl.noted x (mem_of_own hown).1 n hn]
    · refine hl.settled f fun y hy hfile => ?_
      by_cases ht : y.ticket = k
      · rw [eq_of_own hown hy ht] at hfile
        exact absurd hfile hf
      · exact hnone y (List.mem_filter.2 ⟨hy, decide_eq_true ht⟩) hfile
  · exact fun y hy => hl.fresh y (hsub y hy)
  · exact fun y hy => hl.noted y (hsub y hy)
  · exact ⟨hs.past, hs.nodup, hs.unused, hs.unknown, hs.known, hs.before, hs.distinct, hs.new⟩

theorem keeps_release (hj : j ≠ k) : Keeps j (w, h) (w, h.release k) :=
  ⟨own_release hj, fun _ hi => hi, fun _ e he => ⟨e, he, Or.inl rfl, fun _ => rfl⟩⟩

end Effects

end OpsBlobs.LocalChain
