import OpsBlobs.HeadSweep

namespace OpsBlobs.HeadFolds

open Types Coroutine GhostCode WriteEffects Promises VersionDag VersionSweep VersionRecords StateMerge
open Operations SyncApplicator Encryption SyncServer ServerApi ServerPull BlobDownload SyncHost
open RemoteBlobs HeadSweep

section Files

variable {dag : VersionDag} {v fileId fileId' : String}

/-- The graph has the version, as one of this file. -/
def FileOf (dag : VersionDag) (v fileId : String) : Prop :=
  fileId ≠ "" ∧ ∃ node, dag.get v = some node ∧ node.fileId = fileId

theorem FileOf.unique (h : FileOf dag v fileId) (h' : FileOf dag v fileId') : fileId = fileId' := by
  obtain ⟨-, node, hnode, rfl⟩ := h
  obtain ⟨-, node', hnode', rfl⟩ := h'
  rw [Option.some_inj.1 (hnode.symm.trans hnode')]

theorem FileOf.addVersion (h : FileOf dag v fileId) (id : String) (parents : List String)
    (contentHash f : String) : FileOf (addVersion dag id parents contentHash f) v fileId := by
  obtain ⟨hne, node, hnode, hfile⟩ := h
  refine ⟨hne, ?_⟩
  by_cases hv : id = v
  · subst hv
    rw [VersionDag.addVersion, hnode]
    refine ⟨_, JsMap.get_set_self dag _ _, ?_⟩
    dsimp only
    rw [if_neg (hfile.symm ▸ hne), hfile]
  · refine ⟨node, ?_, hfile⟩
    rw [← hnode]
    exact get_addVersion_ne (r := ⟨id, parents, contentHash, f⟩) hv

/-- What is recorded later moves no version to another file. -/
theorem FileOf.recorded (h : FileOf dag v fileId) (ops : List Operation) :
    FileOf (recordVersionEdges dag ops).1 v fileId := by
  rw [(recordVersionEdges_spec dag ops).1, VersionDagStore.replay]
  generalize (ops.filter (·.type ≠ .move)).map edgeOf = edges
  induction edges generalizing dag with
  | nil => exact h
  | cons r rest ih => exact ih (h.addVersion r.v r.p r.c r.f)

theorem fileOf_leaf (h : v ∈ ((leavesByFile dag).get fileId).getD []) : FileOf dag v fileId := by
  rw [get_leavesByFile] at h
  split at h
  · cases h
  · rename_i hne
    obtain ⟨e, he, rfl⟩ := List.mem_map.1 h
    obtain ⟨hmem, hleaf⟩ := List.mem_filter.1 he
    have hfile := (of_decide_eq_true hleaf).1
    exact ⟨(not_or.1 hne).1, e.2, (JsMap.mem_entries_iff dag).1 hmem, hfile⟩

/-- What stands before the first separator is determined. -/
theorem append_separator_inj {c₀ : Char} {l l' r r' : List Char} (hl : c₀ ∉ l) (hl' : c₀ ∉ l')
    (h : l ++ c₀ :: r = l' ++ c₀ :: r') : l = l' ∧ r = r' := by
  induction l generalizing l' with
  | nil =>
      cases l' with
      | nil => exact ⟨rfl, (List.cons.inj h).2⟩
      | cons c rest => exact absurd (List.mem_cons.2 (Or.inl (List.cons.inj h).1)) hl'
  | cons c rest ih =>
      cases l' with
      | nil => exact absurd (List.mem_cons.2 (Or.inl (List.cons.inj h).1.symm)) hl
      | cons c' rest' =>
          obtain ⟨rfl, htail⟩ := List.cons.inj h
          obtain ⟨rfl, hr⟩ := ih (fun hm => hl (List.mem_cons_of_mem _ hm))
            (fun hm => hl' (List.mem_cons_of_mem _ hm)) htail
          exact ⟨rfl, hr⟩

theorem attemptKey_inj {v v' : String} (hnul : '\x00' ∉ fileId.toList)
    (hnul' : '\x00' ∉ fileId'.toList)
    (h : attemptKey fileId v = attemptKey fileId' v') : fileId = fileId' ∧ v = v' := by
  have hlist := congrArg String.toList h
  simp only [attemptKey, String.toList_append, List.append_assoc] at hlist
  obtain ⟨hfile, hv⟩ := append_separator_inj hnul hnul' hlist
  exact ⟨String.toList_inj.1 hfile, String.toList_inj.1 hv⟩

end Files

section Tries

variable (W : WebCrypto) (P : Platform) (ops : JsMap String Operation) (touched deferred : List String)

/-- An attempt to fold a leaf into our head: what it went by, and what the vault was handed. There is
nothing to hand over where the leaf's content could not be had. -/
structure Try where
  fileId : String
  leafId : String
  dag : VersionDag
  localState : VaultState
  op : Operation
  folded : Option Handed

def Try.leafHash (t : Try) : String := leafHashOf t.dag t.op t.leafId

/-- A live leaf of a peer beside our live head, which has a version in common with it, of a file that
a peer touched and that nothing was deferred for. -/
structure Concurrent (dag : VersionDag) (localState : VaultState) (fileId leafId : String)
    (op : Operation) : Prop where
  touched : fileId ∈ touched
  deferred : fileId ∉ deferred
  heads : ∃ le localHead, localState.fileEntries.get fileId = some le ∧ le.deleted = false ∧
    le.head = some localHead ∧ leafId ∈ extraLeaves dag (leavesByFile dag) fileId localHead ∧
      mergeBase dag localHead leafId ≠ .none
  pulled : ops.get leafId = some op
  live : op.type ≠ .delete

/-- The pairwise merge of our file with the leaf alone. -/
structure Folds (t : Try) (handed : Handed) : Prop where
  sides : ∃ le bytes, t.localState.fileEntries.get t.fileId = some le ∧
    handed.localState = singleFileState t.localState le ∧
    handed.remoteState = leafRemoteState t.op t.leafId t.leafHash bytes ∧
    (t.localState.contentStore.get t.leafHash = some bytes ∨ sha256Hex W bytes = t.leafHash)
  dag : handed.dag = t.dag
  actions : ∃ merge, mergeVaultStates P handed.localState handed.remoteState (some t.dag) =
    some merge ∧ merge.actions = handed.actions

/-- What the vault was handed is the tries' folds, in order; and no leaf was tried twice. -/
structure Log (before : List Handed) (dag : VersionDag) (tries : List Try) (s : Net × Desk) : Prop where
  applied : s.2.diary.applied = before ++ tries.filterMap Try.folded
  concurrent : ∀ t ∈ tries, Concurrent ops touched deferred t.dag t.localState t.fileId t.leafId t.op
  folds : ∀ t ∈ tries, ∀ handed, t.folded = some handed → Folds W P t handed
  once : (tries.map Try.leafId).Nodup
  files : ∀ t ∈ tries, FileOf dag t.leafId t.fileId

/-- The sweep's own record of its tries. -/
structure Tally (tries : List Try) (sweep : Sweep) : Prop where
  attempted : sweep.attempted = tries.map fun t => attemptKey t.fileId t.leafId
  missing : ∀ t ∈ tries, t.folded = none → t.leafHash ∈ sweep.missingContent

/-- Each of the file's concurrent leaves was tried, unless the content of one could not be had. -/
def Done (tries : List Try) (dag : VersionDag) (localState : VaultState) (fileId : String) : Prop :=
  ∀ leafId op, Concurrent ops touched deferred dag localState fileId leafId op →
    ∃ t ∈ tries, t.fileId = fileId ∧ (t.leafId = leafId ∨ t.folded = none)

variable {W P ops touched deferred} {before : List Handed} {dag : VersionDag} {tries more : List Try}
  {s s' : Net × Desk} {sweep : Sweep} {localState : VaultState} {fileId leafId localHead : String}
  {op : Operation} {t : Try}

theorem Done.mono (h : Done ops touched deferred tries dag localState fileId) :
    Done ops touched deferred (tries ++ more) dag localState fileId := by
  intro leafId op hconc
  obtain ⟨t, ht, hfile⟩ := h leafId op hconc
  exact ⟨t, List.mem_append_left _ ht, hfile⟩

theorem Log.same (h : Log W P ops touched deferred before dag tries s)
    (hdiary : s'.2.diary = s.2.diary) : Log W P ops touched deferred before dag tries s' :=
  ⟨hdiary ▸ h.applied, h.concurrent, h.folds, h.once, h.files⟩

theorem Log.recorded (h : Log W P ops touched deferred before dag tries s) (own : List Operation)
    (happlied : s'.2.diary.applied = s.2.diary.applied) :
    Log W P ops touched deferred before (recordVersionEdges dag own).1 tries s' :=
  ⟨happlied ▸ h.applied, h.concurrent, h.folds, h.once, fun t ht => (h.files t ht).recorded own⟩

theorem Concurrent.file (h : Concurrent ops touched deferred dag localState fileId leafId op) :
    FileOf dag leafId fileId := by
  obtain ⟨le, localHead, -, -, -, hmem, -⟩ := h.heads
  rw [extraLeaves, sortStrings, List.mem_insertionSort, List.mem_filter] at hmem
  exact fileOf_leaf hmem.1

/-- One more try, of a leaf that was not tried. -/
theorem Log.add (h : Log W P ops touched deferred before dag tries s)
    (hconc : Concurrent ops touched deferred t.dag t.localState t.fileId t.leafId t.op)
    (hdag : t.dag = dag) (hfolds : ∀ handed, t.folded = some handed → Folds W P t handed)
    (hnew : t.leafId ∉ tries.map Try.leafId)
    (happlied : s'.2.diary.applied = s.2.diary.applied ++ t.folded.toList) :
    Log W P ops touched deferred before dag (tries ++ [t]) s' where
  applied := by
    rw [happlied, h.applied, List.append_assoc, List.filterMap_append]
    cases hfolded : t.folded <;> simp [hfolded]
  concurrent := List.forall_mem_append.2 ⟨h.concurrent, List.forall_mem_singleton.2 hconc⟩
  folds := List.forall_mem_append.2 ⟨h.folds, List.forall_mem_singleton.2 hfolds⟩
  once := by
    rw [List.map_append, List.map_singleton]
    exact h.once.append (List.nodup_singleton _) (List.disjoint_singleton.2 hnew)
  files := List.forall_mem_append.2 ⟨h.files, List.forall_mem_singleton.2 (hdag ▸ hconc.file)⟩

theorem Tally.add (h : Tally tries sweep) {missing : List String}
    (hsub : sweep.missingContent ⊆ missing) (hmissing : t.folded = none → t.leafHash ∈ missing)
    (failures : List ApplyFailure) (folded : Bool) :
    Tally (tries ++ [t]) ⟨sweep.attempted ++ [attemptKey t.fileId t.leafId], missing, failures,
      folded, sweep.last⟩ where
  attempted := by rw [h.attempted, List.map_append, List.map_singleton]
  missing := List.forall_mem_append.2 ⟨fun t' ht hnone => hsub (h.missing t' ht hnone),
    List.forall_mem_singleton.2 hmissing⟩

/-- A leaf whose key is not among the keys of the tries was not tried. -/
theorem not_tried (hlog : Log W P ops touched deferred before dag tries s)
    (htally : Tally tries sweep) (hfile : FileOf dag leafId fileId)
    (hkey : attemptKey fileId leafId ∉ sweep.attempted) : leafId ∉ tries.map Try.leafId := by
  intro hmem
  obtain ⟨t, ht, rfl⟩ := List.mem_map.1 hmem
  refine hkey ?_
  rw [htally.attempted, ← (hlog.files t ht).unique hfile]
  exact List.mem_map_of_mem ht

theorem foldable_eq_some (h : foldable dag ops sweep.attempted fileId localHead leafId = some op) :
    attemptKey fileId leafId ∉ sweep.attempted ∧ ops.get leafId = some op ∧ op.type ≠ .delete ∧
      mergeBase dag localHead leafId ≠ .none := by
  rw [foldable] at h
  split at h
  · cases h
  · rename_i hkey
    obtain ⟨hget, hok⟩ := Option.filter_eq_some_iff.1 h
    rw [Bool.and_eq_true, decide_eq_true_eq, decide_eq_true_eq] at hok
    exact ⟨hkey, hget, hok.1, hok.2⟩

/-- Each try uses up a pulled op. -/
theorem Log.length_le (h : Log W P ops touched deferred before dag tries s) {ids : List String}
    (hids : ∀ v op, ops.get v = some op → v ∈ ids) : tries.length ≤ ids.length := by
  have hsub : tries.map Try.leafId ⊆ ids := by
    intro v hv
    obtain ⟨t, ht, rfl⟩ := List.mem_map.1 hv
    exact hids _ _ (h.concurrent t ht).pulled
  have hlen := (h.once.subperm hsub).length_le
  rwa [List.length_map] at hlen

/-- With no foldable leaf left, every concurrent one was tried. -/
theorem done_of_none (hnul : ∀ f ∈ touched, '\x00' ∉ f.toList)
    (hlog : Log W P ops touched deferred before dag tries s) (htally : Tally tries sweep)
    {le : FileEntry} (hle : localState.fileEntries.get fileId = some le)
    (hhead : le.head = some localHead)
    (hnone : firstFoldable dag ops sweep.attempted fileId localHead
      (extraLeaves dag (leavesByFile dag) fileId localHead) = none) :
    Done ops touched deferred tries dag localState fileId := by
  intro leafId op hconc
  obtain ⟨le', head', hle', -, hhead', hmem, hbase⟩ := hconc.heads
  obtain rfl := Option.some_inj.1 (hle.symm.trans hle')
  obtain rfl := Option.some_inj.1 (hhead.symm.trans hhead')
  have hleaf := List.findSome?_eq_none_iff.1 hnone leafId hmem
  rw [Option.map_eq_none_iff, foldable] at hleaf
  have hkey : attemptKey fileId leafId ∈ sweep.attempted := by
    by_contra hkey
    rw [if_neg hkey, hconc.pulled, Option.filter_some, if_pos] at hleaf
    · cases hleaf
    · rw [Bool.and_eq_true, decide_eq_true_eq, decide_eq_true_eq]
      exact ⟨hconc.live, hbase⟩
  rw [htally.attempted] at hkey
  obtain ⟨t, ht, hkeys⟩ := List.mem_map.1 hkey
  obtain ⟨hfile, hv⟩ := attemptKey_inj (hnul _ (hlog.concurrent t ht).touched)
    (hnul _ hconc.touched) hkeys
  exact ⟨t, ht, hfile, Or.inl hv⟩

end Tries

section Sweeping

variable {W : WebCrypto} {P : Platform} {C : VaultCrypto} {H : Request → Prop}
  {Proper : Host → Prop}
  {ops : JsMap String Operation} {touched deferred : List String} {before : List Handed}
  {dag : VersionDag} {tries : List Try} {s : Net × Desk} {sweep : Sweep} {localState : VaultState}
  {fileId : String}

/-- Staged content or the server's; the server's is taken for what it hashes to only. -/
theorem leafBytes_spec (leafHash : String) :
    wp (Around (Traffic H) Proper) (Acts (· = .read)) (leafBytes W C localState leafHash)
      (fun r s' => s'.2.diary = s.2.diary ∧ ends (fun bytes _ => ∀ content, bytes = some content →
        localState.contentStore.get leafHash = some content ∨ sha256Hex W content = leafHash)
          (fun _ _ => True) r s') s := by
  rw [leafBytes]
  split
  · rename_i bytes hstored
    refine ⟨rfl, fun content hcontent => Or.inl ?_⟩
    rw [hstored, hcontent]
  · refine wp_mono ?_ (wp_network (fun _ _ _ h => h) (wp_weaken (fun _ _ _ => trivial)
      (fun _ _ h => h) (fetchBlob_spec source_any trivial (List.mem_singleton_self leafHash))))
    rintro (e | bytes) s' ⟨h, hun⟩
    · exact ⟨hun.diary, trivial⟩
    · exact ⟨hun.diary, fun content hcontent => Or.inr (h.2 content hcontent)⟩

/-- What a part of a pass comes to, after the tries so far: some more tries, and where it throws no
more than was logged. -/
def Tries (W : WebCrypto) (P : Platform) (ops : JsMap String Operation)
    (touched deferred : List String) (before : List Handed) (dag : VersionDag) (tries : List Try)
    (Q : List Try → Sweep → Prop) : Except SyncError Sweep → Net × Desk → Prop :=
  ends (fun sweep s' => ∃ more, Log W P ops touched deferred before dag (tries ++ more) s' ∧
      Tally (tries ++ more) sweep ∧ Q more sweep)
    (fun _ s' => ∃ more, Log W P ops touched deferred before dag (tries ++ more) s')

theorem wp_handed {β : Type} {handed : Handed} {f : SyncHost.ApplyReport → Session β}
    {Q : Except SyncError β → Net × Desk → Prop}
    (h : ∀ s', s'.2.diary.applied = s.2.diary.applied ++ [handed] →
      (∀ message, Q (.error (.other message)) s') ∧
        ∀ report, wp (Around (Traffic H) Proper) (Acts (· = .read)) (f report) Q s') :
    wp (Around (Traffic H) Proper) (Acts (· = .read)) (applyMerge handed >>= f) Q s := by
  refine wp_ask (acts_desk _ _ _) fun s' hs => ?_
  obtain ⟨herr, hok⟩ := h s' (by rw [hs.diary]; rfl)
  exact ⟨herr, fun report _ => hok report⟩

theorem wp_staged {β : Type} {snapshot : VaultState} {hashes : List String}
    {f : VaultState → Session β} {Q : Except SyncError β → Net × Desk → Prop}
    (h : ∀ s', s'.2.diary = s.2.diary → (∀ message, Q (.error (.other message)) s') ∧
      ∀ store, wp (Around (Traffic H) Proper) (Acts (· = .read))
        (f (ScopedStaging.withContent snapshot store)) Q s') :
    wp (Around (Traffic H) Proper) (Acts (· = .read)) (stageContent snapshot hashes >>= f) Q s :=
  wp_bind.2 (wp_ask (acts_desk _ _ _) fun s' hs =>
    ⟨(h s' hs.diary).1, fun store _ => (h s' hs.diary).2 store⟩)

theorem foldLeaf_tries {leafId : String} {op : Operation} {le : FileEntry}
    (hlog : Log W P ops touched deferred before dag tries s) (htally : Tally tries sweep)
    (hconc : Concurrent ops touched deferred dag localState fileId leafId op)
    (hle : localState.fileEntries.get fileId = some le)
    (hnew : leafId ∉ tries.map Try.leafId) :
    wp (Around (Traffic H) Proper) (Acts (· = .read))
      (foldLeaf W C P dag localState le leafId op
        { sweep with attempted := sweep.attempted ++ [attemptKey fileId leafId] })
      (Tries W P ops touched deferred before dag tries fun more sweep' =>
        ∃ t, more = [t] ∧ t.fileId = fileId ∧ sweep'.last = sweep.last ∧
          (sweep'.folded = true ∨ t.folded = none ∧ sweep'.folded = sweep.folded)) s := by
  refine wp_bind.2 (wp_mono ?_ (leafBytes_spec _))
  rintro (e | bytes) s₁ ⟨hdiary, hbytes⟩
  · exact ⟨[], by
      rw [List.append_nil]
      exact hlog.same hdiary⟩
  replace hlog := hlog.same hdiary
  cases bytes with
  | none =>
      let t : Try := ⟨fileId, leafId, dag, localState, op, none⟩
      refine ⟨[t], hlog.add hconc rfl (by rintro _ ⟨⟩) hnew (List.append_nil _).symm,
        htally.add (fun hash hmem => mem_addOnce.2 (Or.inl hmem))
          (fun _ => mem_addOnce.2 (Or.inr rfl)) _ _, t, rfl, rfl, rfl, Or.inr ⟨rfl, rfl⟩⟩
  | some content =>
      simp only [andThen]
      split
      · exact ⟨[], by
          rw [List.append_nil]
          exact hlog⟩
      · rename_i merge hmerge
        refine ⟨acts_desk _ _ _, ?_⟩
        let handed : Handed := ⟨singleFileState localState le,
          leafRemoteState op leafId (leafHashOf dag op leafId) content, dag, merge.actions⟩
        let t : Try := ⟨fileId, leafId, dag, localState, op, some handed⟩
        refine wp_handed fun s₂ happlied => ?_
        have hlog₂ : Log W P ops touched deferred before dag (tries ++ [t]) s₂ := by
          refine hlog.add hconc rfl ?_ hnew happlied
          rintro _ ⟨⟩
          exact ⟨⟨le, content, hle, rfl, rfl, hbytes content rfl⟩, rfl, merge, hmerge, rfl⟩
        exact ⟨fun _ => ⟨[t], hlog₂⟩, fun report => ⟨[t], hlog₂,
          htally.add (fun _ h => h) (by rintro ⟨⟩) _ _, t, rfl, rfl, rfl, Or.inl rfl⟩⟩

theorem foldFile_tries (hnul : ∀ f ∈ touched, '\x00' ∉ f.toList) (hmem : fileId ∈ touched)
    (hlog : Log W P ops touched deferred before dag tries s) (htally : Tally tries sweep) :
    wp (Around (Traffic H) Proper) (Acts (· = .read))
      (foldFile W C P dag ops deferred localState sweep fileId)
      (Tries W P ops touched deferred before dag tries fun more sweep' =>
        (sweep'.folded = true ∨ Done ops touched deferred (tries ++ more) dag localState fileId) ∧
        (sweep.folded = true → sweep'.folded = true) ∧
        (sweep'.folded = true → sweep.folded = true ∨ more ≠ []) ∧ sweep'.last = sweep.last) s := by
  have hpure : Done ops touched deferred tries dag localState fileId →
      wp (Around (Traffic H) Proper) (Acts (· = .read)) (pure sweep : Session Sweep)
        (Tries W P ops touched deferred before dag tries fun more sweep' =>
          (sweep'.folded = true ∨ Done ops touched deferred (tries ++ more) dag localState fileId) ∧
          (sweep.folded = true → sweep'.folded = true) ∧
          (sweep'.folded = true → sweep.folded = true ∨ more ≠ []) ∧ sweep'.last = sweep.last) s := by
    intro hdone
    refine ⟨[], ?_, ?_, Or.inr hdone.mono, id, Or.inl, rfl⟩
    · rwa [List.append_nil]
    · rwa [List.append_nil]
  rw [foldFile]
  split
  · rename_i hdeferred
    exact hpure fun leafId op hconc => absurd hdeferred hconc.deferred
  split
  · rename_i hnone
    refine hpure fun leafId op hconc => ?_
    obtain ⟨le, -, hle, hlive, -⟩ := hconc.heads
    simp [hle, hlive] at hnone
  rename_i le hle
  obtain ⟨hle, hlive⟩ := Option.filter_eq_some_iff.1 hle
  rw [Bool.not_eq_true'] at hlive
  split
  · rename_i hnone
    refine hpure fun leafId op hconc => ?_
    obtain ⟨le', head', hle', -, hhead', -⟩ := hconc.heads
    obtain rfl := Option.some_inj.1 (hle.symm.trans hle')
    rw [hnone] at hhead'
    cases hhead'
  rename_i localHead hhead
  split
  · rename_i hnone
    exact hpure (done_of_none hnul hlog htally hle hhead hnone)
  rename_i leafId op hfirst
  obtain ⟨v, hv, hfoldable⟩ := List.exists_of_findSome?_eq_some hfirst
  obtain ⟨op', hfoldable, heq⟩ := Option.map_eq_some_iff.1 hfoldable
  cases heq
  obtain ⟨hkey, hget, htype, hbase⟩ := foldable_eq_some hfoldable
  by_cases hdeferred : fileId ∈ deferred
  · contradiction
  have hconc : Concurrent ops touched deferred dag localState fileId leafId op :=
    ⟨hmem, hdeferred, ⟨le, localHead, hle, hlive, hhead, hv, hbase⟩, hget, htype⟩
  refine wp_mono ?_ (foldLeaf_tries hlog htally hconc hle (not_tried hlog htally hconc.file hkey))
  rintro (e | sweep') s' h
  · exact h
  obtain ⟨more, hlog', htally', t, rfl, hfile, hlast, hfolded⟩ := h
  refine ⟨[t], hlog', htally', ?_, ?_, fun _ => Or.inr (List.cons_ne_nil _ _), hlast⟩
  · rcases hfolded with hfolded | ⟨hnone, -⟩
    · exact Or.inl hfolded
    · refine Or.inr fun _ _ _ => ⟨t, ?_, hfile, Or.inr hnone⟩
      exact List.mem_append_right _ (List.mem_singleton_self _)
  · intro hbefore
    rcases hfolded with hfolded | ⟨-, hsame⟩
    · exact hfolded
    · rw [hsame, hbefore]

theorem foldFiles_tries (hnul : ∀ f ∈ touched, '\x00' ∉ f.toList) {files : List String}
    (hsub : ∀ f ∈ files, f ∈ touched)
    (hlog : Log W P ops touched deferred before dag tries s) (htally : Tally tries sweep) :
    wp (Around (Traffic H) Proper) (Acts (· = .read))
      (foldM (foldFile W C P dag ops deferred localState) sweep files)
      (Tries W P ops touched deferred before dag tries fun more sweep' =>
        (sweep'.folded = true ∨
          ∀ f ∈ files, Done ops touched deferred (tries ++ more) dag localState f) ∧
        (sweep.folded = true → sweep'.folded = true) ∧
        (sweep'.folded = true → sweep.folded = true ∨ more ≠ []) ∧ sweep'.last = sweep.last) s := by
  induction files generalizing tries sweep s with
  | nil =>
      refine ⟨[], ?_, ?_, Or.inr (List.forall_mem_nil _), id, Or.inl, rfl⟩
      · rwa [List.append_nil]
      · rwa [List.append_nil]
  | cons f rest ih =>
      refine wp_bind'.2 (wp_mono ?_ (foldFile_tries hnul (hsub f List.mem_cons_self) hlog htally))
      rintro (e | sweep₁) s₁ h
      · exact h
      obtain ⟨more, hlog₁, htally₁, hdone, hkeep, hgrow, hlast⟩ := h
      refine wp_mono ?_ (ih (fun f' hf' => hsub f' (List.mem_cons_of_mem f hf')) hlog₁ htally₁)
      rintro (e | sweep₂) s₂ h
      · obtain ⟨more', hlog₂⟩ := h
        exact ⟨more ++ more', by rwa [← List.append_assoc]⟩
      obtain ⟨more', hlog₂, htally₂, hdone', hkeep', hgrow', hlast'⟩ := h
      refine ⟨more ++ more', ?_, ?_, ?_, fun hf => hkeep' (hkeep hf), fun hf => ?_,
        hlast'.trans hlast⟩
      · rwa [← List.append_assoc]
      · rwa [← List.append_assoc]
      · rw [← List.append_assoc]
        rcases hdone' with hfolded | hdone'
        · exact Or.inl hfolded
        · rcases hdone with hfolded | hdone
          · exact Or.inl (hkeep' hfolded)
          · exact Or.inr (List.forall_mem_cons.2 ⟨hdone.mono, hdone'⟩)
      · rcases hgrow' hf with hf₁ | hne
        · exact (hgrow hf₁).imp_right (List.append_ne_nil_of_left_ne_nil · _)
        · exact Or.inr (List.append_ne_nil_of_right_ne_nil _ hne)

/-- The last pass folded nothing: on the snapshot that it got from the vault, each concurrent leaf
was tried, unless the content of one of its file's leaves could not be had. -/
def Settled (Proper : Host → Prop) (ops : JsMap String Operation) (touched deferred : List String)
    (tries : List Try) (sweep : Sweep) : Prop :=
  sweep.folded = false ∧ ∃ host dag snapshot, Proper host ∧
    host.buildLocalIdentity dag = .ok snapshot ∧
    sweep.last = some ((recordVersionEdges dag snapshot.pendingOps).1, snapshot) ∧
    ∀ f ∈ touched, Done ops touched deferred tries
      (recordVersionEdges dag snapshot.pendingOps).1 snapshot f

theorem sweepPass_tries (hnul : ∀ f ∈ touched, '\x00' ∉ f.toList)
    (hlog : Log W P ops touched deferred before dag tries s) (htally : Tally tries sweep) :
    wp (Around (Traffic H) Proper) (Acts (· = .read))
      (sweepPass W C P touched ops deferred dag sweep)
      (ends (fun r s' => ∃ more, Log W P ops touched deferred before r.1 (tries ++ more) s' ∧
          Tally (tries ++ more) r.2 ∧ (r.2.folded = true → more ≠ []) ∧
          (r.2.folded = false → Settled Proper ops touched deferred (tries ++ more) r.2))
        (fun _ s' => ∃ tries' dag', Log W P ops touched deferred before dag' tries' s')) s := by
  refine wp_ask (acts_desk _ _ _) fun s₁ hs₁ => ⟨fun _ => ⟨tries, dag, hlog.same hs₁.diary⟩,
    fun snapshot hsnapshot => ?_⟩
  replace hlog := hlog.same hs₁.diary
  refine wp_bind.2 (wp_ask (acts_desk _ _ _) fun s₂ hs₂ => ?_)
  have happlied : s₂.2.diary.applied = s₁.2.diary.applied := by rw [hs₂.diary]; rfl
  have hlog₂ := hlog.recorded snapshot.pendingOps happlied
  refine ⟨fun _ => ⟨tries, _, hlog₂⟩, fun _ _ => ?_⟩
  refine wp_staged fun s₃ hs₃ => ?_
  have hlog₃ := hlog₂.same hs₃
  refine ⟨fun _ => ⟨tries, _, hlog₃⟩, fun store => ?_⟩
  have hfiles : ∀ f ∈ sortStrings touched, f ∈ touched := fun f hf =>
    (List.mem_insertionSort _).1 hf
  refine wp_bind.2 (wp_mono ?_
    (foldFiles_tries hnul hfiles hlog₃ ⟨htally.attempted, htally.missing⟩))
  rintro (e | sweep') s₄ h
  · obtain ⟨more, hlog₄⟩ := h
    exact ⟨_, _, hlog₄⟩
  obtain ⟨more, hlog₄, htally₄, hdone, -, hgrow, hlast⟩ := h
  refine ⟨more, hlog₄, htally₄, fun hf => (hgrow hf).resolve_left Bool.false_ne_true,
    fun hf => ⟨hf, ?_⟩⟩
  refine ⟨s₁.2.host, dag, snapshot, hs₁.host, hsnapshot, hlast, fun f hmem leafId op hconc => ?_⟩
  rcases hdone with hfolded | hdone
  · rw [hfolded] at hf
    cases hf
  · exact hdone f ((List.mem_insertionSort _).2 hmem) leafId op
      ⟨hconc.touched, hconc.deferred, hconc.heads, hconc.pulled, hconc.live⟩

/-- The passes do not run out: each that folds uses up a pulled op. -/
theorem sweepPasses_tries (hnul : ∀ f ∈ touched, '\x00' ∉ f.toList) {ids : List String}
    (hids : ∀ v op, ops.get v = some op → v ∈ ids) {maxFolds : Nat}
    (hfuel : ids.length < maxFolds + tries.length)
    (hlog : Log W P ops touched deferred before dag tries s) (htally : Tally tries sweep) :
    wp (Around (Traffic H) Proper) (Acts (· = .read))
      (sweepPasses W C P touched ops deferred maxFolds dag sweep)
      (ends (fun sweep s' => ∃ tries' dag', Log W P ops touched deferred before dag' tries' s' ∧
          Tally tries' sweep ∧ Settled Proper ops touched deferred tries' sweep)
        (fun _ s' => ∃ tries' dag', Log W P ops touched deferred before dag' tries' s')) s := by
  induction maxFolds generalizing dag tries sweep s with
  | zero =>
      have hlen := hlog.length_le hids
      omega
  | succ maxFolds ih =>
      refine wp_bind.2 (wp_mono ?_ (sweepPass_tries hnul hlog htally))
      rintro (e | r) s₁ h
      · exact h
      obtain ⟨more, hlog₁, htally₁, hgrow, hsettled⟩ := h
      simp only [andThen]
      split
      · rename_i hfolded
        refine ih ?_ hlog₁ htally₁
        have hpos := List.length_pos_iff.2 (hgrow hfolded)
        rw [List.length_append]
        omega
      · rename_i hfolded
        exact ⟨_, _, hlog₁, htally₁, hsettled (Bool.eq_false_iff.2 hfolded)⟩

end Sweeping

section Heads

variable {W : WebCrypto} {P : Platform} {C : VaultCrypto} {H : Request → Prop}
  {Proper : Host → Prop}
  {pulled : List PulledOp} {own : String} {dag : VersionDag} {missing deferred : List String}
  {failures : List ApplyFailure} {s : Net × Desk}

theorem pulled_of_touched {fileId : String} (h : fileId ∈ touchedFiles pulled own) :
    ∃ p ∈ pulled, p.op.fileId = fileId := by
  rw [touchedFiles] at h
  induction pulled using List.reverseRecOn with
  | nil => cases h
  | append_singleton pulled p ih =>
      have hstep : fileId ∈ pulled.foldl (fun touched p =>
          if p.op.hlcTimestamp.deviceId ≠ own then addOnce touched p.op.fileId else touched) [] ∨
            p.op.fileId = fileId := by
        rw [List.foldl_concat] at h
        split at h
        · exact mem_addOnce.1 h
        · exact Or.inl h
      rcases hstep with hold | hnew
      · obtain ⟨p', hp', hfile⟩ := ih hold
        exact ⟨p', List.mem_append_left _ hp', hfile⟩
      · exact ⟨p, List.mem_append_right _ (List.mem_singleton_self p), hnew⟩

theorem pulled_of_opById {v : String} {op : Operation} (h : (opById pulled).get v = some op) :
    v ∈ pulled.map fun p => p.op.id := by
  rw [opById] at h
  induction pulled using List.reverseRecOn with
  | nil => cases h
  | append_singleton pulled p ih =>
      rw [List.foldl_concat, JsMap.get_set] at h
      rw [List.map_append]
      split at h
      · rename_i hid
        exact List.mem_append_right _ (List.mem_singleton.2 hid.symm)
      · exact List.mem_append_left _ (ih h)

/-- The sweep folds each pulled leaf at most once, and only live ones that stand beside our live head
with a version in common, of files that a peer touched and nothing was deferred for. It ends before
its passes run out, with a pass that folds nothing: if a file had several leaves, then on the
snapshot of that pass each concurrent leaf was folded, or it or another of its file could not be had
and is reported missing. -/
theorem reconcileConcurrentHeads_folds (hnul : ∀ p ∈ pulled, '\x00' ∉ p.op.fileId.toList) :
    wp (Around (Traffic H) Proper) (Acts (· = .read))
      (reconcileConcurrentHeads W C P pulled dag own missing deferred failures)
      (fun r s' => ∃ tries dag', Log W P (opById pulled) (touchedFiles pulled own) deferred
          s.2.diary.applied dag' tries s' ∧ tries.length ≤ pulled.length ∧
        ends (fun sweep _ => (∀ t ∈ tries, t.folded = none → t.leafHash ∈ sweep.missingContent) ∧
          ((∃ f ∈ touchedFiles pulled own, 2 ≤ (((leavesByFile dag).get f).getD []).length) →
            Settled Proper (opById pulled) (touchedFiles pulled own) deferred tries sweep))
          (fun _ _ => True) r s') s := by
  have hlog : Log W P (opById pulled) (touchedFiles pulled own) deferred s.2.diary.applied dag [] s :=
    ⟨(List.append_nil _).symm, List.forall_mem_nil _, List.forall_mem_nil _, List.nodup_nil,
      List.forall_mem_nil _⟩
  have htouched : ∀ f ∈ touchedFiles pulled own, '\x00' ∉ f.toList := by
    intro f hf
    obtain ⟨p, hp, rfl⟩ := pulled_of_touched hf
    exact hnul p hp
  have hlength : ∀ {tries dag' s'}, Log W P (opById pulled) (touchedFiles pulled own) deferred
      s.2.diary.applied dag' tries s' → tries.length ≤ pulled.length := by
    intro tries dag' s' hlog'
    have hlen := hlog'.length_le (fun _ _ => pulled_of_opById)
    rwa [List.length_map] at hlen
  rw [reconcileConcurrentHeads]
  split
  · rename_i hall
    refine ⟨[], dag, hlog, hlength hlog, List.forall_mem_nil _, ?_⟩
    rintro ⟨f, hf, htwo⟩
    exact absurd (of_decide_eq_true (List.all_eq_true.1 hall f hf)) (Nat.not_lt.2 htwo)
  · have hfuel : (pulled.map fun p => p.op.id).length <
        pulled.length + (touchedFiles pulled own).length + 1 + ([] : List Try).length := by
      rw [List.length_map, List.length_nil]
      omega
    refine wp_mono ?_ (sweepPasses_tries htouched (fun _ _ => pulled_of_opById) hfuel hlog
      ⟨rfl, List.forall_mem_nil _⟩)
    rintro (e | sweep) s' h
    · obtain ⟨tries, dag', hlog'⟩ := h
      exact ⟨tries, dag', hlog', hlength hlog', trivial⟩
    · obtain ⟨tries, dag', hlog', htally, hsettled⟩ := h
      exact ⟨tries, dag', hlog', hlength hlog', htally.missing, fun _ => hsettled⟩

/-- Two peers' edits of one file, pulled together. -/
def twoHeads : List PulledOp := [⟨1, opAt "1" "b" 5 "n.md"⟩, ⟨2, opAt "2" "c" 6 "n.md"⟩]

def twoHeadsDag : VersionDag := (recordVersionEdges .empty (twoHeads.map PulledOp.op)).1

theorem noNul_twoHeads : ∀ p ∈ twoHeads, '\x00' ∉ p.op.fileId.toList := by decide

theorem reconcileConcurrentHeads_folds_twoHeads :
    wp (Around (Traffic fun _ => True) fun _ => True) (Acts (· = .read))
      (reconcileConcurrentHeads plainCrypto plainVault asciiPlatform twoHeads twoHeadsDag "a" [] [] [])
      (fun r s' => ∃ tries dag', Log plainCrypto asciiPlatform (opById twoHeads)
          (touchedFiles twoHeads "a") [] idleDesk.diary.applied dag' tries s' ∧
        tries.length ≤ twoHeads.length ∧
        ends (fun sweep _ => (∀ t ∈ tries, t.folded = none → t.leafHash ∈ sweep.missingContent) ∧
          ((∃ f ∈ touchedFiles twoHeads "a",
              2 ≤ (((leavesByFile twoHeadsDag).get f).getD []).length) →
            Settled (fun _ => True) (opById twoHeads) (touchedFiles twoHeads "a") [] tries sweep))
          (fun _ _ => True) r s') (.quiet twoOpsServer, idleDesk) :=
  reconcileConcurrentHeads_folds (s := (.quiet twoOpsServer, idleDesk)) noNul_twoHeads

end Heads

end OpsBlobs.HeadFolds
