import OpsBlobs.LocalChain
import OpsBlobs.RegistryScan
import OpsBlobs.WorldEffects

namespace OpsBlobs.ChainedHandlers

open Types Operations Hlc HlcSession OpIdentity ExclusionPolicy FileRegistry Coroutine World
  ConflictMarkers GhostCode TaskPool WriteEffects WorldEffects RegistryScan LocalHistory LocalChain
open OperationLogger (OpLog.push CaptureState)

section CalmCode

variable {w w' : World} {path : Path} {f : FileEntry → FileEntry}
  {hf : ∀ e, (f e).id = e.id ∧ (f e).path = e.path} {α : Type} {t : Async α}

theorem calm_quiet (hr : w'.registry = w.registry) (hv : w'.log.recorded = w.log.recorded)
    (hc : w'.hlc = w.hlc) : Calm w w' where
  entries f e he := ⟨e, hr ▸ he, rfl, rfl⟩
  created f hnone := by rw [headsAt, hr, hnone]; rfl
  versions := by rw [hv]
  clock := hc

theorem calm_change {id : String} (hsame : ∀ e, (f e).conflictParents = e.conflictParents ∧
    (f e).headVersionId = e.headVersionId) :
    Calm w { w with registry := w.registry.change f hf id } := by
  refine ⟨fun i e he => ?_, fun i hnone => ?_, rfl, rfl⟩
  · change ∃ e', (w.registry.change f hf id).entries.get i = some e' ∧ _
    rw [get_change]
    split
    · exact ⟨f e, congrArg (Option.map f) he, hsame e⟩
    · exact ⟨e, he, rfl, rfl⟩
  · have hget : (w.registry.change f hf id).entries.get i = none := by
      rw [get_change]
      change w.registry.entries.get i = none at hnone
      rw [hnone]
      exact ite_self _
    exact congrArg heads hget

theorem calm_changeAt (hsame : ∀ e, (f e).conflictParents = e.conflictParents ∧
    (f e).headVersionId = e.headVersionId) :
    Calm w { w with registry := w.registry.changeAt f hf path } := by
  rw [changeAt]
  split
  · exact calm_quiet rfl rfl rfl
  · exact calm_change hsame

theorem withStat_same (stat : Option VaultFileStat) (e : FileEntry) :
    (withStat stat e).conflictParents = e.conflictParents ∧
      (withStat stat e).headVersionId = e.headVersionId := by
  cases stat <;> exact ⟨rfl, rfl⟩

theorem calm_updateContentHash (contentHash : String) (hlc : Hlc) (stat : Option VaultFileStat) :
    Calm w { w with registry := w.registry.updateContentHash path contentHash hlc stat } :=
  calm_changeAt fun _ => withStat_same stat _

theorem calm_recordStat (stat : VaultFileStat) :
    Calm w { w with registry := w.registry.recordStat path stat } :=
  calm_changeAt fun _ => withStat_same _ _

theorem calm_markDeleted (hlc : Hlc) :
    Calm w { w with registry := w.registry.markDeleted path hlc } :=
  calm_changeAt fun _ => ⟨rfl, rfl⟩

theorem calm_updatePath (oldPath newPath : Path) (hlc : Hlc) :
    Calm w { w with registry := w.registry.updatePath oldPath newPath hlc } := by
  cases h : w.registry.getByPath oldPath with
  | none =>
      refine calm_quiet ?_ rfl rfl
      change w.registry.updatePath oldPath newPath hlc = w.registry
      rw [updatePath]
      split
      · rfl
      · rename_i id hid
        cases (getByPath_eq_none_iff.1 h).symm.trans hid
  | some e =>
      refine ⟨fun i e' he' => ?_, fun i hnone => ?_, rfl, rfl⟩
      · change ∃ e'', (w.registry.updatePath oldPath newPath hlc).getById i = some e'' ∧ _
        rw [getById_updatePath h]
        split
        · rename_i hi
          obtain rfl : e = e' := Option.some.inj
            ((path_of_getByPath h).2.symm.trans ((congrArg w.registry.entries.get hi).trans he'))
          exact ⟨_, rfl, rfl, rfl⟩
        · exact ⟨e', he', rfl, rfl⟩
      · have hget : (w.registry.updatePath oldPath newPath hlc).getById i = none := by
          rw [getById_updatePath h, if_neg, hnone]
          rintro rfl
          cases (path_of_getByPath h).2.symm.trans hnone
        exact congrArg heads hget

/-- A path that is registered keeps the heads it had, a new one has none. -/
theorem calm_registerFile (w : World) (path : Path) (D : Device) (hlc : Hlc) (contentHash : String)
    (stat : Option VaultFileStat) :
    Calm w { w with registry := (w.registry.registerFile D path hlc contentHash stat).1 } := by
  cases h : w.registry.getByPath path with
  | some e =>
      rw [registerFile_tracked h]
      simp only [resurrect]
      split
      · exact calm_quiet rfl rfl rfl
      · split
        · exact calm_change fun _ => withStat_same stat _
        · exact calm_quiet rfl rfl rfl
  | none =>
      obtain ⟨hfresh, heq⟩ := registerFile_new (D := D) h hlc contentHash stat
      rw [heq]
      have hget : ∀ i, (w.registry.insert _ hfresh).getById i =
          if D.randomUuid w.registry.entries = i then
            some (withStat stat (newEntry (D.randomUuid w.registry.entries) path hlc contentHash))
          else w.registry.getById i := by
        intro i
        change (w.registry.entries.set _).get i = _
        rw [FileEntries.get_set, (withStat_id stat _).1]
        rfl
      refine ⟨fun i e he => ?_, fun i hnone => ?_, rfl, rfl⟩
      · refine ⟨e, (hget i).trans ((if_neg ?_).trans he), rfl, rfl⟩
        rintro rfl
        cases (D.randomUuid_fresh w.registry.entries).symm.trans he
      · rw [headsAt]
        dsimp only
        rw [hget]
        split
        · exact heads_congr (withStat_same stat _).1 (withStat_same stat _).2
        · rw [hnone]
          rfl

theorem calm_persists (h : Persists w w') : Calm w w' := by
  obtain ⟨log, rfl, -, hv⟩ := h
  exact calm_quiet rfl hv rfl

/-- Code that only does calm writes and comes to its end. -/
structure CalmCode (t : Async α) : Prop where
  does : Does Calm t (fun _ => True)
  completes : Completes t

theorem calm_pure (a : α) : CalmCode (pure a : Async α) := ⟨does_pure trivial, trivial⟩

theorem calm_then {β : Type} {t : Async α} {g : α → Async β} (ht : CalmCode t)
    (hg : ∀ a, CalmCode (g a)) : CalmCode (t >>= g) :=
  ⟨does_then ht.does fun a => (hg a).does, completes_bind ht.completes fun a => (hg a).completes⟩

theorem calm_pause : CalmCode (pause : Async Unit) := ⟨does_pause, trivial⟩

theorem calm_read (path : Path) : CalmCode (Files.read path) :=
  ⟨does_read path, fun _ => trivial⟩

theorem calm_fileExists (path : Path) : CalmCode (Files.fileExists path) :=
  ⟨does_fileExists path, fun _ => trivial⟩

theorem calm_list : CalmCode Files.list :=
  ⟨does_then does_get fun _ => does_pure trivial, fun _ => trivial⟩

theorem calm_hashContent (D : Device) (content : Bytes) : CalmCode (hashContent D content) :=
  ⟨does_hashContent D content, trivial⟩

theorem calm_put (hash : String) (content : Bytes) : CalmCode (ContentStore.put hash content) :=
  ⟨does_put fun _ => calm_quiet rfl rfl rfl, fun _ => trivial⟩

theorem calm_updateRegistry {g : FileRegistry → FileRegistry}
    (hg : ∀ w : World, Calm w { w with registry := g w.registry }) :
    CalmCode (updateRegistry g) := ⟨does_updateRegistry hg, fun _ => trivial⟩

theorem calm_modify {g : World → World} (hg : ∀ w, Calm w (g w)) :
    CalmCode (modify g : Async Unit) := ⟨does_modify hg, fun _ => trivial⟩

theorem calm_appendOpLog : CalmCode OperationLogger.appendOpLog := by
  refine ⟨does_weaken (fun _ _ => calm_persists) does_appendOpLog, fun _ => ?_⟩
  refine completes_tryFinally (completes_bind (fun _ => trivial) fun w => ?_) fun _ => trivial
  dsimp only
  split
  · trivial
  · exact fun _ _ _ => trivial

theorem calm_rewriteOpLog : CalmCode OperationLogger.rewriteOpLog :=
  ⟨does_weaken (fun _ _ => calm_persists) does_rewriteOpLog, fun _ =>
    completes_tryFinally (fun _ _ _ _ => trivial) fun _ => trivial⟩

theorem calm_recordMove (fileId : String) (path : Path) (hash : String) (hlc : Hlc)
    (parent : Option String) :
    CalmCode (OperationLogger.recordOp (Ops.move fileId path hash hlc parent)) := by
  refine calm_then (calm_modify fun w => ⟨fun _ e he => ⟨e, he, rfl, rfl⟩, fun f hnone => ?_,
    ?_, rfl⟩) fun _ => calm_appendOpLog
  · exact congrArg heads hnone
  · change versions (w.log.recorded ++ [Ops.move fileId path hash hlc parent]) = _
    rw [versions, List.filter_append]
    exact List.append_nil _

theorem calm_checkpointFlush (st : CaptureState) :
    CalmCode (OperationLogger.checkpointFlush st) := by
  refine calm_then calm_pause fun _ => calm_then calm_pause fun _ => ?_
  split
  · exact calm_then calm_appendOpLog fun _ => calm_pure _
  · exact calm_pure _

theorem calm_checkpointTick (st : CaptureState) :
    CalmCode (OperationLogger.checkpointTick st) := by
  rw [OperationLogger.checkpointTick]
  dsimp only
  split
  · exact calm_then calm_pause fun _ => calm_pure _
  · exact calm_checkpointFlush _

end CalmCode

section Rules

variable {w₀ : World} {k : Nat} {D : Device} {s s' : World × History} {α β : Type} {x : Hold}

/-- The handler keeps to the rules of the others. -/
def Follows (w₀ : World) (k : Nat) (t : Noted α) (Q : Except String α → World × History → Prop)
    (s : World × History) : Prop :=
  meets ((rules w₀).rely k) ((rules w₀).acts k) Meets (rules w₀).inv t Q s

/-- The handler has no file in hand. -/
structure Idle (w₀ : World) (k : Nat) (s : World × History) : Prop where
  inv : Inv w₀ s
  own : s.2.own k = []

/-- The handler has the file of `x` in hand. -/
structure Holding (w₀ : World) (k : Nat) (x : Hold) (s : World × History) : Prop where
  inv : Inv w₀ s
  own : s.2.own k = [x]

/-- The file has an entry without a conflict. -/
def Single (fileId : String) (s : World × History) : Prop :=
  ∃ e, s.1.registry.getById fileId = some e ∧ ¬ e.TwoHeaded

theorem idle_keeps (h : Idle w₀ k s) (hi : Inv w₀ s') (hk : Keeps k s s') : Idle w₀ k s' :=
  ⟨hi, hk.own.trans h.own⟩

theorem holding_keeps (h : Holding w₀ k x s) (hi : Inv w₀ s') (hk : Keeps k s s') :
    Holding w₀ k x s' := ⟨hi, hk.own.trans h.own⟩

theorem single_keeps {fileId : String} (h : Single fileId s) (hk : Keeps k s s') :
    Single fileId s' := by
  obtain ⟨e, he, hsingle⟩ := h
  obtain ⟨e', he', hconf, -⟩ := hk.entries fileId e he
  exact ⟨e', he', not_twoHeaded_mono hconf hsingle⟩

variable {Q : Except String β → World × History → Prop} {t : Noted α} {f : α → Noted β}

theorem follows_bind (ht : Follows w₀ k t (fun _ s => Idle w₀ k s) s)
    (hf : ∀ a s', Idle w₀ k s' → Follows w₀ k (f a) (fun _ s => Idle w₀ k s) s') :
    Follows w₀ k (t >>= f) (fun _ s => Idle w₀ k s) s := by
  refine meets_bind' (meets_mono ?_ ht)
  rintro (e | a) s' h
  · exact h
  · exact hf a s' h

theorem follows_calm {t : Async α} (ht : CalmCode t) (hi : Inv w₀ s) :
    Follows w₀ k (lift t) (returns fun _ s' => Inv w₀ s' ∧ Keeps k s s') s := by
  refine meets_mono ?_ (meets_lift' (P := fun _ => True) (K := Calm)
    (J := fun s' => Inv w₀ s' ∧ Keeps k s s') (fun _ h => h.1) ?_ ?_ ?_ ht.completes
    ⟨hi, keeps_refl k s⟩)
  · rintro (e | a) s' h
    · exact h
    · exact h.1
  · exact fun s₁ s₂ hr h => ⟨hr.1, keeps_trans h.2 hr.2.1⟩
  · intro w w' h hc hJ
    exact ⟨⟨inv_calm hc hJ.1, keeps_trans hJ.2 (keeps_calm hc k h)⟩,
      fun j _ => ⟨keeps_calm hc j h, inv_calm hc⟩⟩
  · exact wp_mono (fun _ _ _ => trivial) (ht.does s.1)

theorem follows_lift {t : Async α} {f : α → Noted β} (ht : CalmCode t) (hi : Inv w₀ s)
    (hf : ∀ a s', Inv w₀ s' → Keeps k s s' → Follows w₀ k (f a) Q s') :
    Follows w₀ k (lift t >>= f) Q s :=
  meets_bind (follows_calm ht hi) fun a s' h => hf a s' h.1 h.2

theorem follows_lift_last {t : Async α} (ht : CalmCode t) (h : Idle w₀ k s) :
    Follows w₀ k (lift t) (fun _ s => Idle w₀ k s) s := by
  refine meets_mono ?_ (follows_calm ht h.inv)
  rintro (e | a) s' h'
  · exact h'.elim
  · exact idle_keeps h h'.1 h'.2

theorem follows_getByPath {path : Path} {f : Option FileEntry → Noted β}
    (h : Follows w₀ k (f (s.1.registry.getByPath path)) Q s) :
    Follows w₀ k (lift (OperationLogger.getByPath path) >>= f) Q s := h

theorem follows_current {e : FileEntry} {f : FileEntry → Noted β}
    (h : Follows w₀ k (f ((s.1.registry.getById e.id).getD e)) Q s) :
    Follows w₀ k (lift (OperationLogger.current e) >>= f) Q s := h

theorem follows_get {f : World → Noted β} (h : Follows w₀ k (f s.1) Q s) :
    Follows w₀ k (lift get >>= f) Q s := h

theorem follows_activeEntries {f : List FileEntry → Noted β}
    (h : ∀ entries, (∀ e ∈ entries, ∃ e', s.1.registry.getById e.id = some e') →
      Follows w₀ k (f entries) Q s) :
    Follows w₀ k (lift (OperationLogger.activeEntries D) >>= f) Q s := by
  refine h (s.1.registry.getActiveEntries.filter fun e => !isExcluded e.path D.settings) ?_
  intro e he
  have hmem := (List.mem_filter.1 (List.mem_filter.1 he).1).1
  exact ⟨e, (FileEntries.mem_values_iff _).1 hmem⟩

/-- Nothing comes between the check for a pending create and what is done about it. -/
theorem follows_prune {fileId : String} {f : Bool → Noted β} (hi : Inv w₀ s)
    (htrue : ∀ s', Inv w₀ s' → Keeps k s s' → Follows w₀ k (f true) Q s')
    (hfalse : Follows w₀ k (f false) Q s) :
    Follows w₀ k (lift (OperationLogger.pruneCreateDeletePair fileId) >>= f) Q s := by
  change Follows w₀ k
    (lift (if OperationLogger.hasPendingCreate fileId s.1.log then _ else _) >>= f) Q s
  split
  · have hcalm : Calm s.1 { s.1 with log := { s.1.log with
        pendingOps := s.1.log.pendingOps.filter (·.fileId ≠ fileId) } } := calm_quiet rfl rfl rfl
    exact fun _ =>
      ⟨fun j _ => ⟨keeps_calm hcalm j s.2, inv_calm hcalm⟩,
        htrue _ (inv_calm hcalm hi) (keeps_calm hcalm k s.2)⟩
  · exact hfalse

theorem follows_issue {f : Hlc → Noted β} (hi : Inv w₀ s)
    (hf : ∀ c s', Inv w₀ s' → Keeps k s s' → (k, c) ∈ s'.2.issued → Follows w₀ k (f c) Q s') :
    Follows w₀ k (issue k >>= f) Q s := fun _ =>
  ⟨fun _ _ => ⟨keeps_issue .., inv_issue k _ _⟩,
    hf _ _ (inv_issue k _ _ hi) (keeps_issue ..) List.mem_cons_self⟩

/-- The heads of an entry are read just as the registry has them. -/
theorem follows_take {f : Unit → Noted β} {e : FileEntry} {use : Use} (h : Idle w₀ k s)
    (he : s.1.registry.getById e.id = some e)
    (hf : ∀ s', Fair ⟨k, e.id, some e, use, none⟩ → Holding w₀ k ⟨k, e.id, some e, use, none⟩ s' →
      s'.1.registry.getById e.id = some e → (∀ c, (k, c) ∈ s.2.issued → (k, c) ∈ s'.2.issued) →
      Follows w₀ k (f ()) Q s') : Follows w₀ k (take k e use >>= f) Q s := by
  intro ho
  have hheads : heads (some e) = headsAt s.1 e.id := congrArg heads he.symm
  have hi' := inv_take ho rfl hheads h.inv
  have hown := (own_take (h := s.2) ⟨k, e.id, some e, use, none⟩).trans (if_pos rfl)
  rw [h.own] at hown
  exact ⟨fun j hj => ⟨keeps_take hj, fun _ => hi'⟩,
    hf _ (ho.2 _ List.mem_cons_self) ⟨hi', hown⟩ he fun _ hc => hc⟩

theorem follows_pushOp {f : Unit → Noted β} {op : Operation} (h : Holding w₀ k x s)
    (hn : x.noted = none) (hop : Suits s.2 k x op)
    (hf : ∀ s', Holding w₀ k { x with noted := some ⟨op, x.found⟩ } s' →
      s'.1.registry = s.1.registry → Follows w₀ k (f ()) Q s') :
    Follows w₀ k (pushOp k op >>= f) Q s := fun _ =>
  ⟨fun _ hj => ⟨keeps_record hj, fun _ => inv_record h.inv h.own hn hop⟩,
    hf _ ⟨inv_record h.inv h.own hn hop, own_record_self h.own⟩ rfl⟩

theorem single_congr {fileId : String} (hr : s'.1.registry = s.1.registry)
    (h : Single fileId s) : Single fileId s' := by
  rw [Single, hr]
  exact h

theorem follows_recordOp {f : Unit → Noted β} {op : Operation} (h : Holding w₀ k x s)
    (hn : x.noted = none) (hop : Suits s.2 k x op)
    (hf : ∀ s' s'', s'.1.registry = s.1.registry → Keeps k s' s'' →
      Holding w₀ k { x with noted := some ⟨op, x.found⟩ } s'' → Follows w₀ k (f ()) Q s'') :
    Follows w₀ k (recordOp k op >>= f) Q s := by
  have hpush : Follows w₀ k (recordOp k op)
      (returns fun _ s'' => ∃ s', s'.1.registry = s.1.registry ∧ Keeps k s' s'' ∧
        Holding w₀ k { x with noted := some ⟨op, x.found⟩ } s'') s := by
    refine follows_pushOp h hn hop fun s' h' hr => ?_
    refine meets_mono ?_ (follows_calm calm_appendOpLog h'.inv)
    rintro (e | a) s'' hk
    · exact hk
    · exact ⟨s', hr, hk.2, holding_keeps h' hk.1 hk.2⟩
  exact meets_bind hpush fun _ s'' h' => by
    obtain ⟨s', hr, hk, h'⟩ := h'
    exact hf s' s'' hr hk h'

theorem registerFile_entry (r : FileRegistry) (D : Device) (path : Path) (hlc : Hlc)
    (contentHash : String) (stat : Option VaultFileStat) :
    ∃ e, (r.registerFile D path hlc contentHash stat).1.getById
        (r.registerFile D path hlc contentHash stat).2 = some e ∧
      (r.getById (r.registerFile D path hlc contentHash stat).2 = none →
        e.conflictParents = none) := by
  cases h : r.getByPath path with
  | none =>
      obtain ⟨hfresh, heq⟩ := registerFile_new (D := D) h hlc contentHash stat
      rw [heq]
      refine ⟨withStat stat (newEntry (D.randomUuid r.entries) path hlc contentHash), ?_,
        fun _ => (withStat_same stat _).1⟩
      change (r.entries.set _).get _ = _
      rw [FileEntries.get_set, (withStat_id stat _).1]
      exact if_pos rfl
  | some e =>
      have he := (path_of_getByPath h).2
      have hcalm := calm_registerFile (World.atRest [] r) path D hlc contentHash stat
      obtain ⟨e', he', -⟩ := hcalm.entries e.id e he
      change (r.registerFile D path hlc contentHash stat).1.getById e.id = some e' at he'
      rw [registerFile_tracked h] at he' ⊢
      exact ⟨e', he', fun hnone => by cases he.symm.trans hnone⟩

theorem follows_registerFile {f : String → Noted β} {path : Path} {hlc : Hlc} {contentHash : String}
    {stat : Option VaultFileStat} (h : Idle w₀ k s)
    (hf : ∀ id found s', Fair ⟨k, id, found, .first, none⟩ →
      Holding w₀ k ⟨k, id, found, .first, none⟩ s' → Single id s' →
      (∀ c, (k, c) ∈ s.2.issued → (k, c) ∈ s'.2.issued) → Follows w₀ k (f id) Q s') :
    Follows w₀ k (registerFile k D path hlc contentHash stat >>= f) Q s := by
  intro ho
  have hcalm := calm_registerFile s.1 path D hlc contentHash stat
  have hfair := ho.2 _ List.mem_cons_self
  obtain ⟨e, he, hnew⟩ := registerFile_entry s.1.registry D path hlc contentHash stat
  have hsingle : ¬ e.TwoHeaded := by
    cases hfound : s.1.registry.getById
        (s.1.registry.registerFile D path hlc contentHash stat).2 with
    | none =>
        rintro ⟨_, hsome, -⟩
        cases (hnew hfound).symm.trans hsome
    | some e₀ =>
        obtain ⟨e', he', hconf, -⟩ := hcalm.entries _ e₀ hfound
        obtain rfl := Option.some.inj (he.symm.trans he')
        rw [hfound] at hfair
        exact fun htwo => hfair.1 ((twoHeaded_congr hconf).1 htwo)
  have hi' := inv_take ho rfl (headsAt_of_calm hcalm _).symm (inv_calm hcalm h.inv)
  refine ⟨fun j hj => ⟨keeps_trans (keeps_calm hcalm j s.2) (keeps_take hj), fun _ => hi'⟩, hi', ?_⟩
  intro s' hr _
  have hown := hr.2.1.own.trans ((own_take _).trans (if_pos rfl))
  rw [h.own] at hown
  exact hf _ _ s' hfair ⟨hr.1, hown⟩ (single_keeps ⟨e, he, hsingle⟩ hr.2.1) hr.2.1.issued

/-- The ids of a history's ops are none of the empty ones that count as no head. -/
theorem id_ne_empty (h : Holding w₀ k x s) {n : Note} (hn : x.noted = some n) : n.op.id ≠ "" := by
  have hlast := h.inv.linked.noted x (mem_of_own h.own).1 n hn
  have hmem : n ∈ s.2.notes := (List.mem_filter.1 (List.mem_of_getLast? hlast)).1
  rcases h.inv.stamped.known n hmem with ⟨hc, -⟩ | ⟨digest, hid⟩
  · intro hempty
    have hl := congrArg String.toList (hc.symm.trans hempty)
    rw [toList_hlcToString] at hl
    exact absurd hl (by simp)
  · rw [hid]
    intro hempty
    exact absurd (congrArg String.toList hempty) (by simp)

theorem heads_eq_singleton {e : FileEntry} {id : String} (hsingle : ¬ e.TwoHeaded)
    (hhead : e.headVersionId = some id) (hid : id ≠ "") : heads (some e) = [id] := by
  rw [heads_of_not_twoHeaded hsingle, FileEntry.head, hhead, Option.filter_some, if_pos]
  · rfl
  · exact decide_eq_true hid

theorem getById_change_self {r : FileRegistry} {f : FileEntry → FileEntry}
    {hf : ∀ e, (f e).id = e.id ∧ (f e).path = e.path} {id : String} {e : FileEntry}
    (h : r.getById id = some e) : (r.change f hf id).getById id = some (f e) := by
  rw [getById, get_change, if_pos rfl]
  exact congrArg (Option.map f) h

theorem follows_setHeadVersion {n : Note} (h : Holding w₀ k x s) (hn : x.noted = some n)
    (hsingle : Single x.fileId s) :
    Follows w₀ k (setHeadVersion k x.fileId n.op.id) (fun _ s => Idle w₀ k s) s := by
  intro _
  obtain ⟨e, he, htwo⟩ := hsingle
  have hget : (s.1.registry.setHeadVersion x.fileId n.op.id).getById x.fileId =
      some { e with headVersionId := some n.op.id } := getById_change_self he
  have hhead : headsAt { s.1 with registry := s.1.registry.setHeadVersion x.fileId n.op.id }
      x.fileId = [n.op.id] :=
    (congrArg heads hget).trans (heads_eq_singleton htwo rfl (id_ne_empty h hn))
  have hi' := inv_change h.inv h.own hn (fun e => { e with headVersionId := some n.op.id })
    (fun _ => ⟨rfl, rfl⟩)
  have hdone := inv_release hi' h.own hn hhead
  refine ⟨fun j hj => ?_, hdone, fun s' hr _ => ?_⟩
  · have hkeeps := keeps_change h.inv h.own hj (fun e => { e with headVersionId := some n.op.id })
      (fun _ => ⟨rfl, rfl⟩) fun _ => Or.inl rfl
    exact ⟨keeps_trans hkeeps (keeps_release hj), fun _ => hdone⟩
  · exact ⟨hr.1, hr.2.1.own.trans own_release_self⟩

/-- The first half of closing a conflict: the head is the merge node. -/
theorem follows_lead {n : Note} {f : Unit → Noted β} (h : Holding w₀ k x s)
    (hn : x.noted = some n) {e : FileEntry} (he : s.1.registry.getById x.fileId = some e)
    (hf : ∀ s', Holding w₀ k x s' → (∃ e', s'.1.registry.getById x.fileId = some e' ∧
      e'.headVersionId = some n.op.id) → Follows w₀ k (f ()) Q s') :
    Follows w₀ k (lift (OperationLogger.setHeadVersion x.fileId n.op.id) >>= f) Q s := by
  intro _
  have hget : (s.1.registry.setHeadVersion x.fileId n.op.id).getById x.fileId =
      some { e with headVersionId := some n.op.id } := getById_change_self he
  have hi' := inv_change h.inv h.own hn (fun e => { e with headVersionId := some n.op.id })
    (fun _ => ⟨rfl, rfl⟩)
  refine ⟨fun j hj => ?_, hi', fun s' hr _ => hf s' ⟨hr.1, hr.2.1.own.trans h.own⟩ ?_⟩
  · have hkeeps := keeps_change h.inv h.own hj (fun e => { e with headVersionId := some n.op.id })
      (fun _ => ⟨rfl, rfl⟩) fun _ => Or.inl rfl
    exact ⟨hkeeps, fun _ => hi'⟩
  · obtain ⟨e', he', -, hhead⟩ := hr.2.1.entries x.fileId _ hget
    exact ⟨e', he', hhead (List.mem_map_of_mem (mem_own.2 (mem_of_own h.own)))⟩

theorem follows_clearConflict {n : Note} (h : Holding w₀ k x s) (hn : x.noted = some n)
    {e : FileEntry} (he : s.1.registry.getById x.fileId = some e)
    (hhead : e.headVersionId = some n.op.id) :
    Follows w₀ k (clearConflict k x.fileId) (fun _ s => Idle w₀ k s) s := by
  intro _
  have hsingle : ¬ ({ e with conflictParents := none } : FileEntry).TwoHeaded := by
    rintro ⟨_, hsome, -⟩
    cases hsome
  have hget : (s.1.registry.clearConflict x.fileId).getById x.fileId =
      some { e with conflictParents := none } := getById_change_self he
  have hheads : headsAt { s.1 with registry := s.1.registry.clearConflict x.fileId } x.fileId =
      [n.op.id] :=
    (congrArg heads hget).trans (heads_eq_singleton hsingle hhead (id_ne_empty h hn))
  have hi' := inv_change h.inv h.own hn (fun e => { e with conflictParents := none })
    (fun _ => ⟨rfl, rfl⟩)
  have hdone := inv_release hi' h.own hn hheads
  refine ⟨fun j hj => ?_, hdone, fun s' hr _ => ?_⟩
  · have hkeeps := keeps_change h.inv h.own hj (fun e => { e with conflictParents := none })
      (fun _ => ⟨rfl, rfl⟩) fun _ => Or.inr rfl
    exact ⟨keeps_trans hkeeps (keeps_release hj), fun _ => hdone⟩
  · exact ⟨hr.1, hr.2.1.own.trans own_release_self⟩

end Rules

section Suits

variable {h : History} {k : Nat} {e : FileEntry} {c : Hlc} {op : Operation} {fileId : String}
  {found : Option FileEntry}

theorem suits_first (hfair : Fair ⟨k, fileId, found, .first, none⟩) (hc : (k, c) ∈ h.issued)
    (path : Path) (hash : String) :
    Suits h k ⟨k, fileId, found, .first, none⟩ (Ops.create fileId path hash c) := by
  refine ⟨rfl, nofun, ?_, Or.inl ⟨rfl, hc⟩⟩
  cases found with
  | none => exact Or.inl rfl
  | some e =>
      obtain ⟨hsingle, hdel | hnone⟩ := hfair
      · refine Or.inr ⟨rfl, rfl, ?_⟩
        rintro _ ⟨⟩
        exact hdel
      · refine Or.inl ?_
        change [] = heads (some e)
        rw [heads_of_not_twoHeaded hsingle, hnone]
        rfl

/-- An op over the head of an entry that is not two-headed. -/
theorem suits_next (op : Operation) (hfair : Fair ⟨k, e.id, some e, .next, none⟩)
    (hfile : op.fileId = e.id) (htype : op.type ≠ .move) (hparents : op.parents = parentList e.headVersionId)
    (hid : IsContent op) (hc : (k, op.hlcTimestamp) ∈ h.issued) :
    Suits h k ⟨k, e.id, some e, .next, none⟩ op :=
  ⟨hfile, htype, Or.inl (hparents.trans (heads_of_not_twoHeaded hfair).symm), Or.inl ⟨hid, hc⟩⟩

end Suits

section Handlers

variable {w₀ : World} {k : Nat} {D : Device} {s : World × History} {path : Path}

/-- What the handlers start from: the heads are older than the clock, and a merge node is not
its own parent. -/
structure Begins (D : Device) (w₀ : World) : Prop where
  before : ∀ f c, hlcToString c ∈ headsAt w₀ f → logicalTime c ≤ logicalTime w₀.hlc
  merges : ∀ f hash, 2 ≤ (headsAt w₀ f).length →
    mergeVersionId D.toPlatform hash (headsAt w₀ f) ∉ headsAt w₀ f

theorem follows_handleCreate (h : Idle w₀ k s) :
    Follows w₀ k (handleCreate k D path) (fun _ s => Idle w₀ k s) s := by
  rw [handleCreate]
  split
  · exact h
  · refine follows_issue h.inv fun hlcTs s₁ hi₁ hk₁ hc => ?_
    have h₁ := idle_keeps h hi₁ hk₁
    refine follows_lift (calm_read path) hi₁ fun content s₂ hi₂ hk₂ => ?_
    have h₂ := idle_keeps h₁ hi₂ hk₂
    cases content with
    | none => exact h₂
    | some content =>
        dsimp only
        split
        · exact h₂
        · refine follows_lift (calm_hashContent D content) hi₂ fun hash s₃ hi₃ hk₃ => ?_
          have h₃ := idle_keeps h₂ hi₃ hk₃
          have hc₃ := hk₃.issued _ (hk₂.issued _ hc)
          refine follows_registerFile h₃ fun id found s₄ hfair h₄ hsingle hc₄ => ?_
          refine follows_lift (calm_put hash content) h₄.inv fun _ s₅ hi₅ hk₅ => ?_
          have h₅ := holding_keeps h₄ hi₅ hk₅
          have hsuits := suits_first hfair (hk₅.issued _ (hc₄ _ hc₃)) path hash
          refine follows_recordOp h₅ rfl hsuits fun s₆ s₇ hr hk₇ h₇ => ?_
          have hlast := follows_setHeadVersion h₇ rfl
            (single_keeps (single_congr hr (single_keeps hsingle hk₅)) hk₇)
          exact hlast

/-- The parents of a merge node are the two heads the file had from the start. -/
theorem suits_merge (hw : Begins D w₀) {e : FileEntry} {parents : List String} {h : History}
    {x : Hold} (hx : x = ⟨k, e.id, some e, .resolve, none⟩) (htwo : e.TwoHeaded)
    (hparents : e.conflictParents = some parents) (hhold : Holding w₀ k x s)
    (path : Path) (hash : String) (c : Hlc) :
    Suits h k x
      (Ops.merge e.id path hash c parents (mergeVersionId D.toPlatform hash parents)) := by
  subst hx
  have hheads : heads (some e) = parents := heads_of_twoHeaded htwo hparents
  have htip := fresh_tip hhold.inv.linked hhold.own rfl
  change heads (some e) = tip (headsAt w₀ e.id) (s.2.notesOf e.id) at htip
  have hlen : 2 ≤ parents.length := by
    obtain ⟨ps, hps, hlen⟩ := htwo
    obtain rfl := Option.some.inj (hps.symm.trans hparents)
    exact hlen
  rw [hheads] at htip
  have hnil : s.2.notesOf e.id = [] := by
    have hlong : 2 ≤ (tip (headsAt w₀ e.id) (s.2.notesOf e.id)).length := htip ▸ hlen
    exact notesOf_eq_nil hlong
  have hstart : parents = headsAt w₀ e.id := by
    rw [hnil] at htip
    exact htip
  refine ⟨rfl, nofun, Or.inl hheads.symm, Or.inr ⟨⟨_, rfl⟩, ?_, ?_⟩⟩
  · change 2 ≤ (heads (some e)).length
    rw [hheads]
    exact hlen
  · change mergeVersionId D.toPlatform hash parents ∉ heads (some e)
    rw [hheads, hstart]
    exact hw.merges e.id hash (hstart ▸ hlen)

theorem follows_resolveTwoHeaded (hw : Begins D w₀) (h : Idle w₀ k s) {entry : FileEntry}
    (hentry : s.1.registry.getById entry.id = some entry) (htwo : entry.TwoHeaded)
    (content : Bytes) (hash : String) :
    Follows w₀ k (resolveTwoHeaded k D path entry content hash) (fun _ s => Idle w₀ k s) s := by
  refine follows_issue h.inv fun hlcTs s₁ hi₁ hk₁ _ => ?_
  refine follows_lift (calm_put hash content) hi₁ fun _ s₂ hi₂ hk₂ => ?_
  refine follows_lift (calm_updateRegistry fun _ => calm_updateContentHash _ _ _) hi₂
    fun _ s₃ hi₃ hk₃ => ?_
  have hk := keeps_trans (keeps_trans hk₁ hk₂) hk₃
  have h₃ := idle_keeps h hi₃ hk
  split
  · exact h₃
  · refine follows_current ?_
    obtain ⟨held, hheld, hconf, -⟩ := hk.entries entry.id entry hentry
    have hid : held.id = entry.id := FileEntries.get_id hheld
    rw [hheld, Option.getD_some]
    cases hp : held.conflictParents with
    | none => exact h₃
    | some parents =>
        have hsame : held.conflictParents = entry.conflictParents :=
          hconf.resolve_right fun hnone => by cases hp.symm.trans hnone
        refine follows_take h₃ (hid.symm ▸ hheld) fun s₄ _ h₄ he₄ _ => ?_
        refine follows_lift calm_pause h₄.inv fun _ s₅ hi₅ hk₅ => ?_
        have h₅ := holding_keeps h₄ hi₅ hk₅
        obtain ⟨e₅, he₅, -⟩ := hk₅.entries held.id held he₄
        have htwo' : held.TwoHeaded := (twoHeaded_congr hsame).2 htwo
        rw [← hid]
        have hsuits := suits_merge (h := s₅.2) hw rfl htwo' hp h₅ path hash hlcTs
        refine follows_recordOp h₅ rfl hsuits fun s₆ s₇ hr hk₇ h₇ => ?_
        obtain ⟨e₇, he₇, -⟩ := hk₇.entries held.id e₅ (hr ▸ he₅)
        have hlead := follows_lead (Q := fun (_ : Except String Unit) s => Idle w₀ k s)
          (f := fun _ => clearConflict k held.id) h₇ rfl he₇ fun s₈ h₈ he₈ => ?_
        · exact hlead
        · obtain ⟨e₈, he₈, hhead⟩ := he₈
          have hlast := follows_clearConflict h₈ rfl he₈ hhead
          exact hlast

theorem follows_flushModify (hw : Begins D w₀) (h : Idle w₀ k s) :
    Follows w₀ k (flushModify k D path) (fun _ s => Idle w₀ k s) s := by
  refine follows_getByPath ?_
  cases hentry : s.1.registry.getByPath path with
  | none => exact follows_handleCreate h
  | some entry =>
      have he := (path_of_getByPath hentry).2
      refine follows_lift (calm_read path) h.inv fun content s₁ hi₁ hk₁ => ?_
      have h₁ := idle_keeps h hi₁ hk₁
      cases content with
      | none => exact h₁
      | some content =>
          dsimp only
          split
          · exact h₁
          · refine follows_lift (calm_hashContent D content) hi₁ fun hash s₂ hi₂ hk₂ => ?_
            have hk := keeps_trans hk₁ hk₂
            have h₂ := idle_keeps h hi₂ hk
            obtain ⟨held, hheld, -⟩ := hk.entries entry.id entry he
            have hid : held.id = entry.id := FileEntries.get_id hheld
            refine follows_current ?_
            rw [hheld, Option.getD_some]
            rw [← hid] at hheld
            split
            · exact h₂
            · split
              · rename_i htwo
                exact follows_resolveTwoHeaded hw h₂ hheld htwo content hash
              · rename_i htwo
                refine follows_take h₂ hheld fun s₃ hfair h₃ he₃ _ => ?_
                refine follows_issue h₃.inv fun hlcTs s₄ hi₄ hk₄ hc => ?_
                have h₄ := holding_keeps h₃ hi₄ hk₄
                refine follows_lift (calm_put hash content) hi₄ fun _ s₅ hi₅ hk₅ => ?_
                refine follows_lift (calm_updateRegistry fun _ => calm_updateContentHash _ _ _) hi₅
                  fun _ s₆ hi₆ hk₆ => ?_
                have hk' := keeps_trans hk₅ hk₆
                have h₆ := holding_keeps h₄ hi₆ hk'
                have hsingle₃ : Single held.id s₃ := ⟨held, he₃, htwo⟩
                have hsingle := single_keeps hsingle₃ (keeps_trans hk₄ hk')
                have hsuits := suits_next (Ops.update held.id path hash hlcTs
                  held.headVersionId) hfair rfl nofun rfl rfl (hk'.issued _ hc)
                refine follows_recordOp h₆ rfl hsuits fun s₇ s₈ hr hk₈ h₈ => ?_
                have hlast := follows_setHeadVersion h₈ rfl
                  (single_keeps (single_congr hr hsingle) hk₈)
                exact hlast

theorem follows_timerFires (hw : Begins D w₀) (h : Idle w₀ k s) :
    Follows w₀ k (timerFires k D path) (fun _ s => Idle w₀ k s) s :=
  follows_lift (calm_modify fun _ => calm_quiet rfl rfl rfl) h.inv fun _ _ hi hk =>
    follows_flushModify hw (idle_keeps h hi hk)

theorem follows_handleDelete (hw : Begins D w₀) (h : Idle w₀ k s) :
    Follows w₀ k (handleDelete k D path) (fun _ s => Idle w₀ k s) s := by
  rw [handleDelete]
  split
  · exact h
  · refine follows_getByPath ?_
    cases hentry : s.1.registry.getByPath path with
    | none => exact h
    | some entry =>
        have he := (path_of_getByPath hentry).2
        refine follows_lift (calm_fileExists path) h.inv fun back s₁ hi₁ hk₁ => ?_
        have h₁ := idle_keeps h hi₁ hk₁
        cases back with
        | true => exact follows_flushModify hw h₁
        | false =>
            refine follows_issue hi₁ fun hlcTs s₂ hi₂ hk₂ hc => ?_
            refine follows_lift (calm_updateRegistry fun _ => calm_markDeleted _) hi₂
              fun _ s₃ hi₃ hk₃ => ?_
            have hk := keeps_trans (keeps_trans hk₁ hk₂) hk₃
            have h₃ := idle_keeps h hi₃ hk
            obtain ⟨held, hheld, -⟩ := hk.entries entry.id entry he
            have hid : held.id = entry.id := FileEntries.get_id hheld
            refine follows_current ?_
            rw [hheld, Option.getD_some]
            split
            · exact h₃
            · refine follows_prune hi₃ (fun s₄ hi₄ hk₄ => ?_) ?_
              · exact follows_lift_last calm_rewriteOpLog (idle_keeps h₃ hi₄ hk₄)
              · rw [← hid] at hheld
                refine follows_take h₃ hheld fun s₄ hfair h₄ he₄ hc₄ => ?_
                have hsuits := suits_next (h := s₄.2) (Ops.delete held.id path
                  held.contentHash hlcTs held.headVersionId) hfair rfl (by rintro ⟨⟩) rfl rfl
                  (hc₄ _ (hk₃.issued _ hc))
                refine follows_recordOp h₄ rfl hsuits fun s₅ s₆ hr hk₆ h₆ => ?_
                have hsingle : Single held.id s₅ := ⟨held, hr ▸ he₄, hfair⟩
                have hlast := follows_setHeadVersion h₆ rfl (single_keeps hsingle hk₆)
                exact hlast

theorem follows_handleRename (hw : Begins D w₀) (h : Idle w₀ k s) (path oldPath : Path) :
    Follows w₀ k (handleRename k D path oldPath) (fun _ s => Idle w₀ k s) s := by
  rw [handleRename]
  split
  · exact h
  · refine follows_getByPath ?_
    cases s.1.registry.getByPath oldPath with
    | none => exact follows_handleCreate h
    | some entry =>
        refine follows_issue h.inv fun hlcTs s₁ hi₁ hk₁ _ => ?_
        refine follows_lift (calm_updateRegistry fun _ => calm_updatePath _ _ _) hi₁
          fun _ s₂ hi₂ hk₂ => ?_
        have h₂ := idle_keeps h hi₂ (keeps_trans hk₁ hk₂)
        refine follows_current ?_
        split
        · exact follows_flushModify hw h₂
        · exact follows_lift_last (calm_recordMove ..) h₂

theorem follows_flush (hw : Begins D w₀) (h : Idle w₀ k s) :
    Follows w₀ k (flush k D) (fun _ s => Idle w₀ k s) s := by
  refine follows_get ?_
  generalize s.1.debounceTimers = paths
  induction paths generalizing s with
  | nil => exact h
  | cons path rest ih => exact follows_bind (follows_timerFires hw h) fun _ _ h' => ih h'

/-- The drifted file may be known to the pass or not. -/
theorem follows_captureDrift (h : Idle w₀ k s) {entry : Option FileEntry}
    (hentry : ∀ e, entry = some e → ∃ e', s.1.registry.getById e.id = some e')
    (hash : String) {hlcTs : Hlc} (hc : (k, hlcTs) ∈ s.2.issued) (stat : VaultFileStat) :
    Follows w₀ k (captureDrift k D path entry hash hlcTs stat) (fun _ s => Idle w₀ k s) s := by
  cases entry with
  | none =>
      refine follows_registerFile h fun id found s₁ hfair h₁ hsingle hc₁ => ?_
      refine follows_pushOp h₁ rfl (suits_first hfair (hc₁ _ hc) path hash) fun s₂ h₂ hr => ?_
      have hlast := follows_setHeadVersion h₂ rfl (single_congr hr hsingle)
      exact hlast
  | some entry =>
      obtain ⟨held, hheld⟩ := hentry entry rfl
      have hid : held.id = entry.id := FileEntries.get_id hheld
      refine follows_current ?_
      rw [hheld, Option.getD_some]
      rw [← hid] at hheld
      by_cases hempty : held.contentHash = ""
      · simp only [hempty, if_true]
        refine follows_take h hheld fun s₁ hfair h₁ he₁ hc₁ => ?_
        have hsingle : Single held.id s₁ := ⟨held, he₁, hfair.1⟩
        refine follows_lift (calm_updateRegistry fun _ => calm_updateContentHash _ _ _) h₁.inv
          fun _ s₂ hi₂ hk₂ => ?_
        have h₂ := holding_keeps h₁ hi₂ hk₂
        refine follows_pushOp h₂ rfl (suits_first hfair (hk₂.issued _ (hc₁ _ hc)) path hash)
          fun s₃ h₃ hr => ?_
        have hlast := follows_setHeadVersion h₃ rfl (single_congr hr (single_keeps hsingle hk₂))
        exact hlast
      · simp only [hempty, if_false]
        refine follows_take h hheld fun s₁ hfair h₁ he₁ hc₁ => ?_
        have hsingle : Single held.id s₁ := ⟨held, he₁, hfair⟩
        refine follows_lift (calm_updateRegistry fun _ => calm_updateContentHash _ _ _) h₁.inv
          fun _ s₂ hi₂ hk₂ => ?_
        have h₂ := holding_keeps h₁ hi₂ hk₂
        have hsuits := suits_next (Ops.update held.id path hash hlcTs held.headVersionId)
          hfair rfl nofun rfl rfl (hk₂.issued _ (hc₁ _ hc))
        refine follows_pushOp h₂ rfl hsuits fun s₃ h₃ hr => ?_
        have hlast := follows_setHeadVersion h₃ rfl (single_congr hr (single_keeps hsingle hk₂))
        exact hlast

theorem follows_captureRef (h : Idle w₀ k s) (st : OperationLogger.CaptureState)
    (ref : VaultFileRef) :
    Follows w₀ k (captureRef k D st ref) (fun _ s => Idle w₀ k s) s := by
  rw [captureRef]
  split
  · exact h
  · dsimp only
    split
    · exact h
    · refine follows_getByPath ?_
      have htracked : ∀ e, s.1.registry.getByPath ref.path = some e →
          s.1.registry.getById e.id = some e := fun e he => (path_of_getByPath he).2
      generalize s.1.registry.getByPath ref.path = entry at htracked
      split
      · exact h
      · refine follows_lift (calm_read ref.path) h.inv fun content s₁ hi₁ hk₁ => ?_
        have h₁ := idle_keeps h hi₁ hk₁
        cases content with
        | none => exact h₁
        | some content =>
            refine follows_lift (calm_hashContent D content) hi₁ fun hash s₂ hi₂ hk₂ => ?_
            have h₂ := idle_keeps h₁ hi₂ hk₂
            have hentry : ∀ e, entry = some e → ∃ e', s₂.1.registry.getById e.id = some e' := by
              intro e he
              obtain ⟨e', he', -⟩ := (keeps_trans hk₁ hk₂).entries e.id e (htracked e he)
              exact ⟨e', he'⟩
            have hdrift : Follows w₀ k (do
                lift (ContentStore.putBuffered hash content)
                let hlcTs ← issue k
                captureDrift k D ref.path entry hash hlcTs ref.toVaultFileStat
                lift (OperationLogger.checkpointTick
                  { { st with onDisk := st.onDisk ++ [ref.path] } with changed := true }))
                (fun _ s => Idle w₀ k s) s₂ := by
              refine follows_lift (calm_put hash content) hi₂ fun _ s₃ hi₃ hk₃ => ?_
              refine follows_issue hi₃ fun hlcTs s₄ hi₄ hk₄ hc => ?_
              have hk := keeps_trans hk₃ hk₄
              refine follows_bind (follows_captureDrift (idle_keeps h₂ hi₄ hk) ?_ hash hc _)
                fun _ s₅ h₅ => follows_lift_last (calm_checkpointTick _) h₅
              intro e he
              obtain ⟨e', he'⟩ := hentry e he
              obtain ⟨e'', he'', -⟩ := hk.entries e.id e' he'
              exact ⟨e'', he''⟩
            cases entry with
            | none => exact hdrift
            | some entry =>
                refine follows_current ?_
                change Follows w₀ k (if _ then (if _ then _ else _) else _) _ s₂
                split
                · split
                  · exact h₂
                  · exact follows_lift (calm_updateRegistry fun _ => calm_recordStat _) hi₂
                      fun _ s₃ hi₃ hk₃ => idle_keeps h₂ hi₃ hk₃
                · exact hdrift

theorem follows_captureVanished (h : Idle w₀ k s) (st : OperationLogger.CaptureState)
    {entry : FileEntry} (hentry : ∃ e, s.1.registry.getById entry.id = some e) :
    Follows w₀ k (captureVanished k st entry) (fun _ s => Idle w₀ k s) s := by
  obtain ⟨first, hfirst⟩ := hentry
  refine follows_current ?_
  rw [hfirst, Option.getD_some]
  split
  · exact h
  · refine follows_issue h.inv fun hlcTs s₁ hi₁ hk₁ hc => ?_
    refine follows_lift (calm_updateRegistry fun _ => calm_markDeleted _) hi₁
      fun _ s₂ hi₂ hk₂ => ?_
    have hk := keeps_trans hk₁ hk₂
    have h₂ := idle_keeps h hi₂ hk
    have hfid : first.id = entry.id := FileEntries.get_id hfirst
    obtain ⟨held, hheld, -⟩ := hk.entries first.id first (hfid.symm ▸ hfirst)
    have hid : held.id = first.id := FileEntries.get_id hheld
    refine follows_current ?_
    rw [hheld, Option.getD_some]
    rw [← hid] at hheld
    split
    · exact h₂
    · refine follows_take h₂ hheld fun s₃ hfair h₃ he₃ hc₃ => ?_
      have hsingle : Single held.id s₃ := ⟨held, he₃, hfair⟩
      have hsuits := suits_next (h := s₃.2) (Ops.delete held.id held.path held.contentHash
        hlcTs held.headVersionId) hfair rfl nofun rfl rfl (hc₃ _ (hk₂.issued _ hc))
      refine follows_pushOp h₃ rfl hsuits fun s₄ h₄ hr => ?_
      have hlast := follows_setHeadVersion h₄ rfl (single_congr hr hsingle)
      exact follows_bind hlast fun _ _ h₅ => h₅

theorem follows_captureRefs (aborted : World → Bool) (live : List VaultFileRef)
    (st : OperationLogger.CaptureState) (h : Idle w₀ k s) :
    Follows w₀ k (captureRefs k D aborted st live) (fun _ s => Idle w₀ k s) s := by
  induction live generalizing st s with
  | nil => exact h
  | cons ref rest ih =>
      refine follows_get ?_
      split
      · exact h
      · exact follows_bind (follows_captureRef h st ref) fun st s' h' => ih st h'

/-- The entries of a pass stay in the registry while it runs. -/
theorem follows_vanished {entries : List FileEntry} (st : OperationLogger.CaptureState)
    (h : Idle w₀ k s) (hentries : ∀ e ∈ entries, ∃ e', s.1.registry.getById e.id = some e') :
    Follows w₀ k (foldM (captureVanished k) st entries) (fun _ s => Idle w₀ k s) s := by
  induction entries generalizing s st with
  | nil => exact h
  | cons entry rest ih =>
      have hkept : ∀ j (s s' : World × History), Keeps j s s' →
          (∀ e ∈ rest, ∃ e', s.1.registry.getById e.id = some e') →
          ∀ e ∈ rest, ∃ e', s'.1.registry.getById e.id = some e' := by
        intro j s s' hk hs e he
        obtain ⟨e', he'⟩ := hs e he
        obtain ⟨e'', he'', -⟩ := hk.entries e.id e' he'
        exact ⟨e'', he''⟩
      have hone := follows_captureVanished h st (hentries entry List.mem_cons_self)
      refine meets_bind' (meets_mono ?_ (meets_invariant (fun s s' hr => hkept k s s' hr.2.1)
        (fun s s' ha => hkept (k + 1) s s' (ha (k + 1) (Nat.succ_ne_self k)).1) hone
        fun e he => hentries e (List.mem_cons_of_mem _ he)))
      rintro (e | st') s' ⟨h', hrest⟩
      · exact h'
      · exact ih st' h' hrest

theorem follows_captureOfflineChanges (aborted : World → Bool) (h : Idle w₀ k s) :
    Follows w₀ k (captureOfflineChanges k D aborted) (fun _ s => Idle w₀ k s) s := by
  refine meets_tryFinally (meets_mono (fun r s' (h' : Idle w₀ k s') => ?_) (?_ :
    Follows w₀ k _ (fun _ s => Idle w₀ k s) s))
  · refine ⟨h'.inv, fun s'' hr _ => ?_⟩
    cases r <;> exact idle_keeps h' hr.1 hr.2.1
  · refine follows_lift calm_list h.inv fun live s₁ hi₁ hk₁ => ?_
    refine follows_bind (follows_captureRefs aborted live _ (idle_keeps h hi₁ hk₁))
      fun out s₂ h₂ => ?_
    obtain ⟨st, stopped⟩ := out
    dsimp only
    split
    · exact follows_lift (calm_checkpointFlush st) h₂.inv fun _ _ hi hk => idle_keeps h₂ hi hk
    · refine follows_activeEntries fun entries hentries => ?_
      split
      · exact follows_lift (calm_checkpointFlush st) h₂.inv fun _ _ hi hk => idle_keeps h₂ hi hk
      · refine follows_bind (follows_vanished st h₂ hentries) fun st' s₃ h₃ => ?_
        exact follows_lift (calm_checkpointFlush st') h₃.inv fun _ _ hi hk => idle_keeps h₃ hi hk

theorem follows_notedTask (hw : Begins D w₀) (h : Idle w₀ k s) (e : LocalHistory.Event) :
    Follows w₀ k (notedTask D k e) (returns fun _ s => Idle w₀ k s) s := by
  have hhandler : Follows w₀ k (notedHandler D k e) (fun _ s => Idle w₀ k s) s := by
    cases e with
    | edit f => exact follows_lift_last (calm_modify fun _ => calm_quiet rfl rfl rfl) h
    | create path => exact follows_handleCreate h
    | modify path =>
        refine follows_lift_last ?_ h
        rw [OperationLogger.handleModify]
        split
        · exact calm_pure ()
        · exact calm_modify fun _ => calm_quiet rfl rfl rfl
    | delete path => exact follows_handleDelete hw h
    | rename path oldPath => exact follows_handleRename hw h path oldPath
    | timer path => exact follows_timerFires hw h
    | flush => exact follows_flush hw h
    | capture aborted => exact follows_captureOfflineChanges aborted h
  refine meets_tryCatch (meets_mono ?_ hhandler)
  rintro (e | u) s' h' <;> exact h'

end Handlers

section Runs

variable {D : Device} {w₀ : World} {p : Pool (World × History) String}

theorem sound_rules (hw : Begins D w₀) : (rules w₀).Sound (NotedStarts D) Meets where
  refl k s := ⟨keeps_refl k s, id⟩
  trans _ _ _ _ h h' := ⟨keeps_trans h.1 h'.1, fun hi => h'.2 (h.2 hi)⟩
  settled _ _ _ hk hd := hk.1.own.trans hd
  started := by
    rintro k _ s ⟨e, rfl⟩ hi hd
    have htask := follows_notedTask hw ⟨hi, hd⟩ e
    refine meets_mono ?_ htask
    rintro (e | u) s' h
    · exact h
    · exact ⟨h.inv, h.own⟩

theorem inv_begin (hw : Begins D w₀) : Inv w₀ (w₀, History.empty) where
  linked :=
    { orderly := ⟨List.nodup_nil, fun _ hx => absurd hx List.not_mem_nil⟩
      recorded := (List.append_nil _).symm
      linear := fun _ => trivial
      settled := fun _ _ => rfl
      fresh := fun _ hx => absurd hx List.not_mem_nil
      noted := fun _ hx => absurd hx List.not_mem_nil }
  stamped :=
    { past := fun _ hi => absurd hi List.not_mem_nil
      nodup := List.nodup_nil
      unused := fun _ hi => absurd hi List.not_mem_nil
      unknown := fun _ hi => absurd hi List.not_mem_nil
      known := fun _ hn => absurd hn List.not_mem_nil
      before := hw.before
      distinct := fun _ => List.nodup_nil
      new := fun _ _ hn => absurd hn List.not_mem_nil }

/-- The local ops of every file form one chain that starts at the heads the file had: each op is
made on the version before it, no two share a parent, a root is recorded only of a file that
was gone or never had a version, and with all handlers at their ends the registry's head is
the last op. -/
structure Chained (w₀ : World) (p : Pool (World × History) String) : Prop where
  recorded : versions p.state.1.log.recorded =
    versions w₀.log.recorded ++ p.state.2.notes.map (·.op)
  linear : ∀ f, Linear (headsAt w₀ f) (p.state.2.notesOf f)
  apart : ∀ f, Apart (p.state.2.notesOf f)
  head : p.Ended → ∀ f n, (p.state.2.notesOf f).getLast? = some n →
    ∃ e, p.state.1.registry.getById f = some e ∧ e.headVersionId = some n.op.id

theorem headVersionId_of_heads {found : Option FileEntry} {id : String} (h : heads found = [id]) :
    ∃ e, found = some e ∧ e.headVersionId = some id := by
  cases found with
  | none => cases h
  | some e =>
      refine ⟨e, rfl, ?_⟩
      by_cases htwo : e.TwoHeaded
      · obtain ⟨ps, hps, hlen⟩ := htwo
        rw [heads_of_twoHeaded ⟨ps, hps, hlen⟩ hps] at h
        rw [h] at hlen
        exact absurd hlen (by simp)
      · rw [heads_of_not_twoHeaded htwo] at h
        have hhead : e.head = some id := Option.toList_eq_singleton_iff.1 h
        exact (Option.filter_eq_some_iff.1 hhead).1

/-- In every run in which no handler reads a file's heads while another is still to advance
them, no first version is recorded of a live file that has one, and only the resolving save
builds on a two-headed file, the local history of every file is one chain. -/
theorem chained_of_runs (hw : Begins D w₀)
    (hr : Runs (NotedStarts D) Meets (.initial (w₀, History.empty)) p) : Chained w₀ p := by
  have hsound := sound_rules (D := D) hw
  have hstart : (rules w₀).Holds Meets (.initial (w₀, History.empty) : Pool _ String) :=
    Protocol.holds_initial (inv_begin hw) fun _ => rfl
  have hholds := Protocol.holds_of_runs hsound hstart hr
  have hinv : Inv w₀ p.state := by
    refine Protocol.invariant_of_runs hsound ?_ hstart hr (inv_begin hw)
    exact fun k _ _ ha hi => (ha (k + 1) (Nat.succ_ne_self k)).2 hi
  refine ⟨hinv.linked.recorded, hinv.linked.linear, fun f => ?_, fun hend f n hn => ?_⟩
  · exact apart_of_linear (hinv.linked.linear f) (hinv.stamped.distinct f) (hinv.stamped.new f)
  · apply headVersionId_of_heads
    refine (hinv.linked.settled f fun x hx _ => ?_).trans ?_
    · have hown : p.state.2.own x.ticket = [] := Protocol.done_of_ended hholds hend x.ticket
      exact absurd rfl (own_eq_nil.1 hown x hx)
    · rw [tip, hn]

end Runs

section Sample

def firstNote : FileEntry :=
  { fileAt "f" "n.md" "g" 1 with headVersionId := some (hlcToString ⟨0, 0, "a"⟩) }

/-- `n.md` was edited and its timer runs. -/
def editedNote : World :=
  { atRest [("n.md", [104]), ("m.md", [105])] (FileRegistry.empty.insert firstNote (by decide)) with
    debounceTimers := ["n.md"] }

theorem begins_editedNote : Begins asciiDevice editedNote := by
  have hheads : ∀ f, headsAt editedNote f = if "f" = f then [hlcToString ⟨0, 0, "a"⟩] else [] := by
    intro f
    have hget : editedNote.registry.getById f = if "f" = f then some firstNote else none :=
      FileEntries.get_set ..
    rw [headsAt, hget]
    split <;> rfl
  refine ⟨fun f c hmem => ?_, fun f hash hlen => ?_⟩
  · rw [hheads] at hmem
    split at hmem
    · rw [hlcToString_inj (List.mem_singleton.1 hmem)]
      exact le_refl _
    · cases hmem
  · rw [hheads] at hlen
    split at hlen <;> exact absurd hlen (by simp)

/-- A new file comes in while the edit of another is flushed. -/
def besideFlush : List (Choice LocalHistory.Event) :=
  [.start .flush, .start (.create "m.md")] ++ List.replicate 4 (.resume 0) ++
    List.replicate 4 (.resume 1) ++ List.replicate 7 (.resume 0) ++ List.replicate 7 (.resume 1)

/-- An edit arms the timer again, which fires before the flush has advanced the head. -/
def timerDuringFlush : List (Choice LocalHistory.Event) :=
  [.start .flush, .start (.modify "n.md"), .start (.timer "n.md")] ++
    List.replicate 3 (.resume 0) ++ List.replicate 3 (.resume 2) ++
      List.replicate 8 (.resume 0) ++ List.replicate 8 (.resume 2)

theorem chained_of_runs_beside : ∃ p,
    besideFlush.foldlM (choose (notedTask asciiDevice) Meets)
      (.initial (editedNote, History.empty)) = some p ∧ p.Ended ∧
      p.state.2.notes.length = 2 ∧ Chained editedNote p := by
  have hends : ∀ p ∈ besideFlush.foldlM (choose (notedTask asciiDevice) Meets)
      (.initial (editedNote, History.empty)), p.Ended ∧ p.state.2.notes.length = 2 := by
    decide +kernel
  obtain ⟨p, hrun⟩ : ∃ p, besideFlush.foldlM (choose (notedTask asciiDevice) Meets)
      (.initial (editedNote, History.empty)) = some p :=
    Option.isSome_iff_exists.1 (by decide +kernel)
  obtain ⟨hend, hlen⟩ := hends p hrun
  exact ⟨p, hrun, hend, hlen, chained_of_runs begins_editedNote
    (runs_of_schedule rfl (fun k e _ => ⟨e, rfl⟩) hrun)⟩

/-- Both flushes read the old head, and both updates have it for their parent. -/
theorem flushes_fork : ¬ ∀ (D : Device) (w₀ : World) (p : Pool World String), Begins D w₀ →
    w₀.log.recorded = [] → Runs (Starts D) (fun _ _ => True) (.initial w₀) p →
      (versions p.state.log.recorded).Pairwise fun a b =>
        a.fileId = b.fileId → ∀ v ∈ a.parents, v ∉ b.parents := by
  intro h
  have hfork : ∀ p ∈ timerDuringFlush.foldlM (choose (task asciiDevice) fun _ _ => True)
      (.initial editedNote), ¬ (versions p.state.log.recorded).Pairwise fun a b =>
        a.fileId = b.fileId → ∀ v ∈ a.parents, v ∉ b.parents := by decide +kernel
  obtain ⟨p, hrun⟩ : ∃ p, timerDuringFlush.foldlM (choose (task asciiDevice) fun _ _ => True)
      (.initial editedNote) = some p := Option.isSome_iff_exists.1 (by decide +kernel)
  exact hfork p hrun (h asciiDevice editedNote p begins_editedNote rfl
    (runs_of_schedule rfl (fun k e _ => ⟨e, rfl⟩) hrun))

end Sample

end OpsBlobs.ChainedHandlers
