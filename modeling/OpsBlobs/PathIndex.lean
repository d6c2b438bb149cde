import OpsBlobs.FileRegistry

namespace OpsBlobs.FileRegistry

open Types Hlc ExclusionPolicy

section Remote

variable (r : FileRegistry)

/-- A remote entry that replaces one at another path takes that path's mapping away. -/
def leave (id : String) (path : Path) : JsMap Path String :=
  match r.entries.get id with
  | some existing =>
      if existing.path ≠ path then r.pathIndex.delete existing.path else r.pathIndex
  | none => r.pathIndex

theorem get_leave {r : FileRegistry} {id i : String} {path p : Path}
    (h : (r.leave id path).get p = some i) :
    r.pathIndex.get p = some i ∧ (p ≠ path → i ≠ id) := by
  unfold leave at h
  split at h
  · rename_i existing hex
    split at h
    · rw [JsMap.get_delete] at h
      split at h
      · cases h
      · rename_i hdel
        refine ⟨h, fun _ hi => ?_⟩
        obtain ⟨e, he, hp⟩ := r.indexed p i h
        cases (hi ▸ he).symm.trans hex
        exact hdel hp
    · rename_i hpath
      refine ⟨h, fun hne hi => ?_⟩
      obtain ⟨e, he, hp⟩ := r.indexed p i h
      cases (hi ▸ he).symm.trans hex
      exact hne (hp.symm.trans (not_not.1 hpath))
  · rename_i hnone
    refine ⟨h, fun _ hi => ?_⟩
    obtain ⟨e, he, -⟩ := r.indexed p i h
    cases (hi ▸ he).symm.trans hnone

def accept (entry : FileEntry) : FileRegistry where
  entries := r.entries.set entry
  pathIndex :=
    if entry.deleted then r.leave entry.id entry.path
    else (r.leave entry.id entry.path).set entry.path entry.id
  indexed p i hp := by
    rw [FileEntries.get_set]
    have hkeep : (r.leave entry.id entry.path).get p = some i →
        ∃ e, (if entry.id = i then some entry else r.entries.get i) = some e ∧ e.path = p := by
      intro h
      obtain ⟨hidx, hne⟩ := get_leave h
      by_cases hi : entry.id = i
      · exact ⟨entry, if_pos hi, by_contra fun hpath => hne (Ne.symm hpath) hi.symm⟩
      · rw [if_neg hi]
        exact r.indexed p i hidx
    split at hp
    · exact hkeep hp
    · rw [JsMap.get_set] at hp
      split at hp
      · exact ⟨entry, if_pos (Option.some.inj hp), ‹_›⟩
      · exact hkeep hp

/-- Whether the registry has an entry of this id that is as new. -/
def hasNewer (entry : FileEntry) : Bool :=
  match r.entries.get entry.id with
  | some existing => 0 ≤ hlcCompare existing.hlcTimestamp entry.hlcTimestamp
  | none => false

def applyRemoteEntry (entry : FileEntry) : FileRegistry :=
  if r.hasNewer entry then r else r.accept entry

def indexEntry (index : JsMap Path String) (e : FileEntry) : JsMap Path String :=
  if e.deleted then index else index.set e.path e.id

def rebuildPathIndex (m : FileEntries) : JsMap Path String :=
  m.values.foldl indexEntry .empty

theorem get_rebuild {l : List FileEntry} {index : JsMap Path String} {p : Path} {id : String}
    (h : (l.foldl indexEntry index).get p = some id) :
    index.get p = some id ∨ ∃ e ∈ l, e.deleted = false ∧ e.path = p ∧ e.id = id := by
  induction l generalizing index with
  | nil => exact Or.inl h
  | cons e l ih =>
      rcases ih h with h | ⟨e', he', h⟩
      · unfold indexEntry at h
        split at h
        · exact Or.inl h
        · rename_i hlive
          rw [JsMap.get_set] at h
          split at h
          · exact Or.inr ⟨e, List.mem_cons_self, by simpa using hlive, ‹_›, Option.some.inj h⟩
          · exact Or.inl h
      · exact Or.inr ⟨e', List.mem_cons_of_mem _ he', h⟩

/-- The registry as the snapshot and the journal have it. -/
def load (m : FileEntries) : FileRegistry where
  entries := m
  pathIndex := rebuildPathIndex m
  indexed p id h := by
    rcases get_rebuild h with h | ⟨e, he, -, hp, rfl⟩
    · exact nomatch h
    · exact ⟨e, (FileEntries.mem_values_iff m).1 he, hp⟩

end Remote

end OpsBlobs.FileRegistry

namespace OpsBlobs.PathIndex

open Types Hlc FileRegistry

inductive Mutation
  | registerFile (path : Path) (hlc : Hlc) (contentHash : String) (stat : Option VaultFileStat)
  | updatePath (oldPath newPath : Path) (hlc : Hlc)
  | updateContentHash (path : Path) (contentHash : String) (hlc : Hlc)
      (stat : Option VaultFileStat)
  | recordStat (path : Path) (stat : VaultFileStat)
  | markDeleted (path : Path) (hlc : Hlc)
  | applyRemoteEntry (entry : FileEntry)
  | adoptRemote (id : String) (path : Path) (contentHash : String) (hlc : Hlc)
      (headVersionId : Option String)
  | setHeadVersion (fileId versionId : String)
  | markConflicted (path : Path) (contentHash : String) (hlc : Hlc) (parents : List String)
  | clearConflict (fileId : String)
  | setSyncedPath (fileId : String)
  | reconcileWithVault (allFiles : List VaultFileRef) (hlc : Hlc)
  | compact (now : Nat) (pinned : List String)
  | resetAll
  | load (entries : FileEntries)

def mutate (D : Device) (r : FileRegistry) : Mutation → FileRegistry
  | .registerFile path hlc contentHash stat => (r.registerFile D path hlc contentHash stat).1
  | .updatePath oldPath newPath hlc => r.updatePath oldPath newPath hlc
  | .updateContentHash path contentHash hlc stat => r.updateContentHash path contentHash hlc stat
  | .recordStat path stat => r.recordStat path stat
  | .markDeleted path hlc => r.markDeleted path hlc
  | .applyRemoteEntry entry => r.applyRemoteEntry entry
  | .adoptRemote id path contentHash hlc headVersionId =>
      r.adoptRemote id path contentHash hlc headVersionId
  | .setHeadVersion fileId versionId => r.setHeadVersion fileId versionId
  | .markConflicted path contentHash hlc parents => r.markConflicted path contentHash hlc parents
  | .clearConflict fileId => r.clearConflict fileId
  | .setSyncedPath fileId => r.setSyncedPath fileId
  | .reconcileWithVault allFiles hlc => r.reconcileWithVault D allFiles hlc
  | .compact now pinned => r.reclaimTombstones D.settings now pinned
  | .resetAll => FileRegistry.empty
  | .load entries => FileRegistry.load entries

/-- The index finds every live file, and what it finds is there. -/
structure Exact (r : FileRegistry) : Prop where
  live : ∀ id e, r.entries.get id = some e → e.deleted = false → r.pathIndex.get e.path = some id
  mapped : ∀ p id, r.pathIndex.get p = some id → ∃ e, r.entries.get id = some e ∧ e.path = p

/-- No live file but the named one is found at the path. -/
def Free (r : FileRegistry) (path : Path) (id : String) : Prop :=
  ∀ e, r.getByPath path = some e → e.deleted = true ∨ e.id = id

/-- The mutation takes no path from another live file; a load reads no path twice. -/
def Safe (r : FileRegistry) : Mutation → Prop
  | .updatePath oldPath newPath _ =>
      ∀ id, r.pathIndex.get oldPath = some id → Free r newPath id
  | .applyRemoteEntry entry =>
      r.hasNewer entry = false →
        (∀ existing, r.entries.get entry.id = some existing → existing.path ≠ entry.path →
          Free r existing.path entry.id) ∧
        (entry.deleted = false → Free r entry.path entry.id)
  | .adoptRemote id path _ _ _ =>
      ∀ prev, r.entries.get id = some prev → prev.path ≠ path → Free r prev.path id
  | .load entries =>
      ∀ e e', entries.get e.id = some e → entries.get e'.id = some e' → e.deleted = false →
        e'.deleted = false → e.path = e'.path → e.id = e'.id
  | _ => True

section Steps

variable {r : FileRegistry} {D : Device}

theorem exact_of_live
    (h : ∀ id e, r.entries.get id = some e → e.deleted = false →
      r.pathIndex.get e.path = some id) : Exact r := ⟨h, r.indexed⟩

theorem exact_empty : Exact FileRegistry.empty :=
  exact_of_live fun _ _ he => absurd he (by simp [FileRegistry.empty])

/-- At most one live file holds a path. -/
theorem exact_unique (h : Exact r) {id id' : String} {e e' : FileEntry}
    (he : r.entries.get id = some e) (he' : r.entries.get id' = some e')
    (hlive : e.deleted = false) (hlive' : e'.deleted = false) (hpath : e.path = e'.path) :
    id = id' := by
  have hidx := h.live id e he hlive
  rw [hpath, h.live id' e' he' hlive'] at hidx
  exact (Option.some.inj hidx).symm

/-- A live file at a path is the one found there. -/
theorem getByPath_live (h : Exact r) {id : String} {e : FileEntry} (he : r.entries.get id = some e)
    (hlive : e.deleted = false) : r.getByPath e.path = some e :=
  Option.bind_eq_some_iff.2 ⟨id, h.live id e he hlive, he⟩

theorem free_iff (h : Exact r) {path : Path} {id : String} : Free r path id ↔
    ∀ id' e, r.entries.get id' = some e → e.deleted = false → e.path = path → id' = id := by
  constructor
  · rintro hfree id' e he hlive rfl
    have hid := FileEntries.get_id he
    rcases hfree e (getByPath_live h he hlive) with hdel | heq
    · exact absurd (hlive.symm.trans hdel) Bool.false_ne_true
    · exact hid.symm.trans heq
  · intro hall e he
    obtain ⟨hpath, hget⟩ := path_of_getByPath he
    by_cases hdel : e.deleted = true
    · exact Or.inl hdel
    · exact Or.inr (hall _ e hget (Bool.eq_false_of_not_eq_true hdel) hpath)

theorem exact_change {f : FileEntry → FileEntry} {hf : ∀ e, (f e).id = e.id ∧ (f e).path = e.path}
    {id : String} (h : Exact r) (hlive : ∀ e, r.entries.get id = some e → (f e).deleted = false →
      e.deleted = false ∨ r.pathIndex.get e.path = some id) : Exact (r.change f hf id) := by
  refine exact_of_live fun i e he hl => ?_
  rw [get_change] at he
  rw [pathIndex_change]
  split at he
  · rename_i hid
    obtain ⟨e₀, he₀, rfl⟩ := Option.map_eq_some_iff.1 he
    subst hid
    rw [(hf e₀).2]
    exact (hlive e₀ he₀ hl).elim (h.live id e₀ he₀) fun hidx => hidx
  · exact h.live i e he hl

theorem exact_changeAt {f : FileEntry → FileEntry}
    {hf : ∀ e, (f e).id = e.id ∧ (f e).path = e.path} {path : Path} (h : Exact r) :
    Exact (r.changeAt f hf path) := by
  unfold changeAt
  split
  · exact h
  · rename_i id hidx
    refine exact_change h fun e he _ => Or.inr ?_
    obtain ⟨e', he', hpath⟩ := r.indexed path id hidx
    cases he.symm.trans he'
    exact hpath ▸ hidx

theorem exact_insert {e : FileEntry} {hfresh : r.entries.get e.id = none} (h : Exact r)
    (hnone : r.pathIndex.get e.path = none) : Exact (r.insert e hfresh) := by
  refine exact_of_live fun id x hx hlive => ?_
  simp only [FileRegistry.insert] at hx ⊢
  rw [FileEntries.get_set] at hx
  rw [JsMap.get_set]
  split at hx
  · obtain rfl := Option.some.inj hx
    rw [if_pos rfl]
    exact congrArg some ‹_›
  · have hidx := h.live id x hx hlive
    rw [if_neg, hidx]
    intro hpath
    cases (hpath ▸ hnone).symm.trans hidx

theorem exact_resurrect {id : String} {path : Path} {hlc : Hlc} {contentHash : String}
    {stat : Option VaultFileStat} (h : Exact r) (hidx : r.pathIndex.get path = some id) :
    Exact (r.resurrect id hlc contentHash stat) := by
  unfold resurrect
  split
  · exact h
  · rename_i entry hentry
    split
    · refine exact_change h fun e he _ => Or.inr ?_
      obtain ⟨e', he', hpath⟩ := r.indexed path id hidx
      cases he.symm.trans he'
      exact hpath ▸ hidx
    · exact h

theorem exact_registerFile {path : Path} {hlc : Hlc} {contentHash : String}
    {stat : Option VaultFileStat} (h : Exact r) :
    Exact (r.registerFile D path hlc contentHash stat).1 := by
  unfold FileRegistry.registerFile
  split
  · exact exact_resurrect h ‹_›
  · rename_i hnone
    have hfresh : r.entries.get (withStat stat
        (newEntry (D.randomUuid r.entries) path hlc contentHash)).id = none := by
      rw [(withStat_id stat _).1]
      exact D.randomUuid_fresh r.entries
    refine @exact_insert r _ hfresh h ?_
    rw [(withStat_id stat _).2]
    exact hnone

theorem exact_addPlaceholder {hlc : Hlc} {path : Path} (h : Exact r) :
    Exact (r.addPlaceholder D hlc path) := by
  unfold addPlaceholder
  split
  · rename_i hnew
    refine exact_insert h ?_
    simp only [Bool.and_eq_true, Option.isNone_iff_eq_none] at hnew
    exact hnew.1
  · exact h

theorem exact_reconcile {allFiles : List VaultFileRef} {hlc : Hlc} (h : Exact r) :
    Exact (r.reconcileWithVault D allFiles hlc) := by
  have hadd : ∀ (l : List VaultFileRef) (r : FileRegistry), Exact r →
      Exact (l.foldl (fun r file => r.addPlaceholder D hlc file.path) r) := by
    intro l
    induction l with
    | nil => exact fun r h => h
    | cons file l ih => exact fun r h => ih _ (exact_addPlaceholder h)
  have htomb : ∀ (paths : List Path) (ids : List String) (r : FileRegistry), Exact r →
      Exact (ids.foldl (fun r id => r.change (fun e =>
        if !e.deleted && e.path ∉ paths then { e with deleted := true, hlcTimestamp := hlc } else e)
        (fun _ => by split <;> exact ⟨rfl, rfl⟩) id) r) := by
    intro paths ids
    induction ids with
    | nil => exact fun r h => h
    | cons id ids ih =>
        refine fun r h => ih _ (exact_change h fun e _ hlive => Or.inl ?_)
        split at hlive
        · cases hlive
        · exact hlive
  exact htomb _ _ _ (hadd _ _ h)

theorem exact_remove {id : String} {path : Path}
    {hpath : ∀ e, r.entries.get id = some e → e.path = path} (h : Exact r) :
    Exact (r.remove id path hpath) := by
  refine exact_of_live fun i e he hlive => ?_
  simp only [remove] at he ⊢
  rw [FileEntries.get_delete] at he
  split at he
  · cases he
  · rename_i hne
    have hidx := h.live i e he hlive
    split
    · rename_i hown
      rw [JsMap.get_delete, if_neg, hidx]
      rintro rfl
      exact hne (Option.some.inj (hown.symm.trans hidx))
    · exact hidx

theorem exact_reclaimTombstones {settings : ExclusionPolicy.SyncSettings} {now : Nat}
    {pinned : List String} (h : Exact r) : Exact (r.reclaimTombstones settings now pinned) := by
  unfold FileRegistry.reclaimTombstones
  generalize r.entries.keys = ids
  induction ids generalizing r with
  | nil => exact h
  | cons id ids ih =>
      refine ih ?_
      beta_reduce
      split
      · exact h
      · split
        · exact exact_remove h
        · exact h

theorem exact_updatePath_iff {oldPath newPath : Path} {hlc : Hlc} (h : Exact r) :
    Exact (r.updatePath oldPath newPath hlc) ↔
      ∀ id, r.pathIndex.get oldPath = some id → Free r newPath id := by
  unfold FileRegistry.updatePath
  split
  · rename_i hnone
    exact iff_of_true h fun id hid => by cases hnone.symm.trans hid
  · rename_i id hidx
    obtain ⟨entry, hentry, hold⟩ := r.indexed oldPath id hidx
    split
    · rename_i hnone
      cases hnone.symm.trans hentry
    · rename_i entry' hentry'
      obtain rfl := Option.some.inj (hentry.symm.trans hentry')
      have hid : entry.id = id := FileEntries.get_id hentry
      constructor
      · intro hexact id' hid'
        obtain rfl := Option.some.inj (hidx.symm.trans hid')
        refine (free_iff h).2 fun i e he hlive hpath => ?_
        by_contra hne
        have he' : (r.entries.set { entry with path := newPath, hlcTimestamp := hlc }).get i =
            some e := by
          rw [FileEntries.get_set, if_neg (hid ▸ Ne.symm hne), he]
        have := hexact.live i e he' hlive
        rw [hpath, JsMap.get_set, if_pos rfl] at this
        exact hne (Option.some.inj this).symm
      · intro hfree
        have hfree := (free_iff h).1 (hfree id hidx)
        refine exact_of_live fun i e he hlive => ?_
        simp only at he ⊢
        rw [FileEntries.get_set] at he
        rw [JsMap.get_set]
        split at he
        · rename_i hi
          obtain rfl := Option.some.inj he
          rw [if_pos rfl, ← hi]
          exact congrArg some hid.symm
        · rename_i hi
          rw [if_neg, JsMap.get_delete, if_neg]
          · exact h.live i e he hlive
          · intro hpath
            have := hpath ▸ h.live i e he hlive
            exact hi (hid.trans (Option.some.inj (hidx.symm.trans this)))
          · intro hpath
            exact hi (hid.trans (hfree i e he hlive hpath.symm).symm)

theorem get_leave_eq {id : String} {path p : Path} : (r.leave id path).get p =
    if ∃ existing, r.entries.get id = some existing ∧ existing.path ≠ path ∧ existing.path = p then
      none else r.pathIndex.get p := by
  unfold leave
  split
  · rename_i existing hex
    split
    · rename_i hne
      rw [JsMap.get_delete]
      refine if_congr ⟨fun hp => ⟨existing, hex, hne, hp⟩, ?_⟩ rfl rfl
      rintro ⟨e, he, -, hp⟩
      cases hex.symm.trans he
      exact hp
    · rename_i heq
      rw [if_neg]
      rintro ⟨e, he, hne, -⟩
      cases hex.symm.trans he
      exact heq hne
  · rename_i hnone
    rw [if_neg]
    rintro ⟨e, he, -⟩
    cases hnone.symm.trans he

theorem exact_accept_iff {entry : FileEntry} (h : Exact r) : Exact (r.accept entry) ↔
    (∀ existing, r.entries.get entry.id = some existing → existing.path ≠ entry.path →
      Free r existing.path entry.id) ∧ (entry.deleted = false → Free r entry.path entry.id) := by
  have hidx : ∀ p, (r.accept entry).pathIndex.get p =
      if entry.deleted = false ∧ entry.path = p then some entry.id
      else (r.leave entry.id entry.path).get p := by
    intro p
    have hindex : (r.accept entry).pathIndex = if entry.deleted then r.leave entry.id entry.path
        else (r.leave entry.id entry.path).set entry.path entry.id := rfl
    rw [hindex]
    by_cases hdel : entry.deleted = true
    · simp [hdel]
    · simp [hdel, JsMap.get_set]
  have hget : ∀ i, (r.accept entry).entries.get i =
      if entry.id = i then some entry else r.entries.get i := FileEntries.get_set _ _
  constructor
  · intro hexact
    have hother : ∀ i e, r.entries.get i = some e → e.deleted = false → i ≠ entry.id →
        (r.accept entry).pathIndex.get e.path = some i := fun i e he hlive hne =>
      hexact.live i e ((hget i).trans ((if_neg (Ne.symm hne)).trans he)) hlive
    refine ⟨fun existing hex hpath => (free_iff h).2 fun i e he hlive hp => ?_,
      fun hlive => (free_iff h).2 fun i e he hl hp => ?_⟩
    · by_contra hne
      have := hother i e he hlive hne
      rw [hidx, if_neg fun hc => hpath (hp ▸ hc.2.symm), get_leave_eq,
        if_pos ⟨existing, hex, hpath, hp.symm⟩] at this
      cases this
    · by_contra hne
      have := hother i e he hl hne
      rw [hidx, if_pos ⟨hlive, hp.symm⟩] at this
      exact hne (Option.some.inj this).symm
  · rintro ⟨hold, hnew⟩
    refine exact_of_live fun i e he hlive => ?_
    rw [hget] at he
    rw [hidx]
    split at he
    · rename_i hi
      obtain rfl := Option.some.inj he
      rw [if_pos ⟨hlive, rfl⟩, hi]
    · rename_i hi
      rw [if_neg, get_leave_eq, if_neg]
      · exact h.live i e he hlive
      · rintro ⟨existing, hex, hpath, hp⟩
        exact hi ((free_iff h).1 (hold existing hex hpath) i e he hlive hp.symm).symm
      · rintro ⟨hl, hp⟩
        exact hi ((free_iff h).1 (hnew hl) i e he hlive hp.symm).symm

theorem exact_applyRemoteEntry_iff {entry : FileEntry} (h : Exact r) :
    Exact (r.applyRemoteEntry entry) ↔ Safe r (.applyRemoteEntry entry) := by
  unfold applyRemoteEntry
  split
  · rename_i hnewer
    exact iff_of_true h fun hold => absurd (hnewer.symm.trans hold).symm Bool.false_ne_true
  · rename_i hnewer
    rw [exact_accept_iff h]
    exact ⟨fun hsafe _ => hsafe, fun hsafe => hsafe (Bool.eq_false_of_not_eq_true hnewer)⟩

theorem evict_self (r : FileRegistry) (id : String) (path : Path) :
    (r.evict id path).get id = r.entries.get id := by
  unfold evict
  split
  · split
    · rfl
    · rename_i hne
      rw [FileEntries.get_delete, if_neg hne]
  · rfl

theorem get_unindex_eq {id : String} {path p : Path} : (r.unindex id path).get p =
    if ∃ prev, r.entries.get id = some prev ∧ prev.path ≠ path ∧ prev.path = p then none
    else r.pathIndex.get p := by
  unfold unindex
  rw [evict_self]
  split
  · rename_i prev hprev
    split
    · rename_i heq
      rw [if_neg]
      rintro ⟨e, he, hne, -⟩
      cases hprev.symm.trans he
      exact hne heq
    · rename_i hne
      rw [JsMap.get_delete]
      refine if_congr ⟨fun hp => ⟨prev, hprev, hne, hp⟩, ?_⟩ rfl rfl
      rintro ⟨e, he, -, hp⟩
      cases hprev.symm.trans he
      exact hp
  · rename_i hnone
    rw [if_neg]
    rintro ⟨e, he, -⟩
    cases hnone.symm.trans he

theorem get_of_evict {id i : String} {path : Path} {e : FileEntry}
    (he : (r.evict id path).get i = some e) :
    r.entries.get i = some e ∧ (r.pathIndex.get path = some i → i = id) := by
  unfold evict at he
  split at he
  · rename_i existingId hidx
    split at he
    · rename_i heq
      exact ⟨he, fun h => (Option.some.inj (hidx.symm.trans h)).symm.trans heq⟩
    · rw [FileEntries.get_delete] at he
      split at he
      · cases he
      · rename_i hne
        exact ⟨he, fun h => absurd (Option.some.inj (hidx.symm.trans h)) hne⟩
  · rename_i hnone
    exact ⟨he, fun h => by cases hnone.symm.trans h⟩

theorem exact_adoptRemote_iff {id : String} {path : Path} {contentHash : String} {hlc : Hlc}
    {headVersionId : Option String} (h : Exact r) :
    Exact (r.adoptRemote id path contentHash hlc headVersionId) ↔
      ∀ prev, r.entries.get id = some prev → prev.path ≠ path → Free r prev.path id := by
  constructor
  · intro hexact prev hprev hpath
    refine (free_iff h).2 fun i e he hlive hp => ?_
    by_contra hne
    have hkeep := get_evict (r := r) id he rfl (hp ▸ hpath)
    have := hexact.live i e ((FileEntries.get_set _ _ _).trans ((if_neg (Ne.symm hne)).trans hkeep))
      hlive
    simp only [FileRegistry.adoptRemote] at this
    rw [JsMap.get_set, if_neg (hp ▸ Ne.symm hpath), get_unindex_eq,
      if_pos ⟨prev, hprev, hpath, hp.symm⟩] at this
    cases this
  · intro hfree
    refine exact_of_live fun i e he hlive => ?_
    simp only [FileRegistry.adoptRemote] at he ⊢
    rw [FileEntries.get_set] at he
    rw [JsMap.get_set]
    split at he
    · rename_i hi
      obtain rfl := Option.some.inj he
      exact (if_pos rfl).trans (congrArg some hi)
    · rename_i hi
      obtain ⟨he, hown⟩ := get_of_evict he
      have hidx := h.live i e he hlive
      rw [if_neg, get_unindex_eq, if_neg, hidx]
      · rintro ⟨prev, hprev, hpath, hp⟩
        exact hi ((free_iff h).1 (hfree prev hprev hpath) i e he hlive hp.symm).symm
      · rintro rfl
        exact hi (hown hidx).symm

theorem rebuild_isSome {l : List FileEntry} {index : JsMap Path String} {p : Path}
    (h : (∃ id, index.get p = some id) ∨ ∃ e ∈ l, e.deleted = false ∧ e.path = p) :
    ∃ id, (l.foldl indexEntry index).get p = some id := by
  induction l generalizing index with
  | nil => exact h.resolve_right fun ⟨e, he, _⟩ => absurd he List.not_mem_nil
  | cons e l ih =>
      refine ih ?_
      unfold indexEntry
      rcases h with ⟨id, hid⟩ | ⟨e', he', hlive, hp⟩
      · refine Or.inl ?_
        split
        · exact ⟨id, hid⟩
        · rw [JsMap.get_set]
          split
          · exact ⟨_, rfl⟩
          · exact ⟨id, hid⟩
      · rcases List.mem_cons.1 he' with rfl | he'
        · refine Or.inl ⟨e'.id, ?_⟩
          rw [hlive, if_neg Bool.false_ne_true, JsMap.get_set, if_pos hp]
        · exact Or.inr ⟨e', he', hlive, hp⟩

theorem exact_load_iff {m : FileEntries} : Exact (FileRegistry.load m) ↔
    ∀ e e', m.get e.id = some e → m.get e'.id = some e' → e.deleted = false →
      e'.deleted = false → e.path = e'.path → e.id = e'.id := by
  constructor
  · exact fun h e e' he he' hlive hlive' hpath => exact_unique h he he' hlive hlive' hpath
  · intro hone
    refine exact_of_live fun id e he hlive => ?_
    have hid := FileEntries.get_id he
    have hmem : e ∈ m.values := (FileEntries.mem_values_iff m).2 (hid ▸ he)
    obtain ⟨id', hid'⟩ := @rebuild_isSome _ .empty _ (Or.inr ⟨e, hmem, hlive, rfl⟩)
    rcases get_rebuild hid' with hnone | ⟨e', he', hlive', hpath, rfl⟩
    · cases hnone
    · rw [← hid, hone e e' ((FileEntries.mem_values_iff m).1 hmem)
        ((FileEntries.mem_values_iff m).1 he') hlive hlive' hpath.symm]
      exact hid'

/-- One mutation keeps the index exact if and only if it is safe. -/
theorem exact_mutate_iff (m : Mutation) (h : Exact r) : Exact (mutate D r m) ↔ Safe r m := by
  cases m with
  | registerFile path hlc contentHash stat => exact iff_of_true (exact_registerFile h) trivial
  | updatePath oldPath newPath hlc => exact exact_updatePath_iff h
  | updateContentHash path contentHash hlc stat => exact iff_of_true (exact_changeAt h) trivial
  | recordStat path stat => exact iff_of_true (exact_changeAt h) trivial
  | markDeleted path hlc => exact iff_of_true (exact_changeAt h) trivial
  | applyRemoteEntry entry => exact exact_applyRemoteEntry_iff h
  | adoptRemote id path contentHash hlc headVersionId => exact exact_adoptRemote_iff h
  | setHeadVersion fileId versionId =>
      have hkeep : Exact (r.setHeadVersion fileId versionId) := by
        unfold FileRegistry.setHeadVersion
        exact exact_change h fun _ _ => Or.inl
      exact iff_of_true hkeep trivial
  | markConflicted path contentHash hlc parents => exact iff_of_true (exact_changeAt h) trivial
  | clearConflict fileId =>
      have hkeep : Exact (r.clearConflict fileId) := by
        unfold FileRegistry.clearConflict
        exact exact_change h fun _ _ => Or.inl
      exact iff_of_true hkeep trivial
  | setSyncedPath fileId =>
      have hkeep : Exact (r.setSyncedPath fileId) := by
        unfold FileRegistry.setSyncedPath
        exact exact_change h fun _ _ => Or.inl
      exact iff_of_true hkeep trivial
  | reconcileWithVault allFiles hlc => exact iff_of_true (exact_reconcile h) trivial
  | compact now pinned => exact iff_of_true (exact_reclaimTombstones h) trivial
  | resetAll => exact iff_of_true exact_empty trivial
  | load entries => exact exact_load_iff

end Steps

section Runs

variable (D : Device)

/-- All the registries that a run of mutations goes through. -/
def states (r : FileRegistry) (ms : List Mutation) : List FileRegistry :=
  ms.scanl (mutate D) r

def AllSafe : FileRegistry → List Mutation → Prop
  | _, [] => True
  | r, m :: ms => Safe r m ∧ AllSafe (mutate D r m) ms

theorem exact_states_iff {r : FileRegistry} (h : Exact r) (ms : List Mutation) :
    (∀ s ∈ states D r ms, Exact s) ↔ AllSafe D r ms := by
  induction ms generalizing r with
  | nil => exact iff_of_true (by simpa [states] using h) trivial
  | cons m ms ih =>
      rw [states, List.scanl_cons, List.forall_mem_cons, AllSafe, ← exact_mutate_iff (D := D) m h]
      rw [and_iff_right h]
      constructor
      · intro hall
        have hnext := hall (mutate D r m) (by cases ms <;> simp)
        exact ⟨hnext, (ih hnext).1 hall⟩
      · rintro ⟨hnext, hsafe⟩
        exact (ih hnext).2 hsafe

/-- From an empty registry on the index stays exact as long as all mutations are safe. -/
theorem pathIndex_exact_iff (ms : List Mutation) :
    (∀ s ∈ states D FileRegistry.empty ms, Exact s) ↔ AllSafe D FileRegistry.empty ms :=
  exact_states_iff D exact_empty ms

end Runs

/-- Of two files one is renamed onto the other. -/
def ontoAnother : List Mutation :=
  [.registerFile "a" ⟨1, 0, "d"⟩ "h" none, .registerFile "b" ⟨2, 0, "d"⟩ "h" none,
    .updatePath "a" "b" ⟨3, 0, "d"⟩]

theorem pathIndex_not_exact :
    ¬ ∀ ms, ∀ s ∈ states asciiDevice FileRegistry.empty ms, Exact s := by
  intro h
  obtain ⟨-, -, hsafe, -⟩ := (exact_states_iff asciiDevice exact_empty _).1 (h ontoAnother)
  have hfound := hsafe "u" (by decide +kernel)
    (newEntry "uu" "b" ⟨2, 0, "d"⟩ "h") (by decide +kernel)
  revert hfound
  decide

end OpsBlobs.PathIndex
