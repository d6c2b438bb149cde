import OpsBlobs.Diff3Mirror
import OpsBlobs.MergeOutcome
import OpsBlobs.VersionGraph

namespace OpsBlobs.MirroredMerge

open Relation Types Diff3 Diff3Mirror Hlc VersionDag VersionGraph StateMerge Resolution MergeOutcome

/-- What one device does about a file, and what the other one does about the same. -/
inductive Faces : MergeAction → MergeAction → Prop
  | settled {fileId : String} : Faces (.noOp fileId) (.noOp fileId)
  | write {fileId : String} {path : Path} {content : Bytes} {hlc : Hlc} {head : Option String} :
      Faces (.writeLocal fileId path content hlc head) (.noOp fileId)
  | deletion {fileId : String} {path : Path} :
      Faces (.deleteLocal fileId path) (.deleteRemote fileId path)
  | move {fileId : String} {fromPath toPath : Path} :
      Faces (.moveLocal fileId fromPath toPath) (.noOp fileId)
  | merge {fileId : String} {path : Path} {content content' : Bytes} {parents parents' : List String}
      (hp : parents.Perm parents') :
      Faces (.writeMerge fileId path content parents) (.writeMerge fileId path content' parents')
  | conflict {fileId : String} {localPath remotePath : Path} {m m' : ThreeWayMergeResult Line}
      {localContent remoteContent : Text} {parents parents' : List String}
      (hm : Exchanged m m') (hp : parents.Perm parents') :
      Faces (.conflict fileId localPath remotePath m localContent remoteContent (some parents))
        (.conflict fileId remotePath localPath m' remoteContent localContent (some parents'))
  | deleteConflict {fileId : String} {path : Path} {content : Bytes} {parents parents' : List String}
      (hp : parents.Perm parents') :
      Faces (.deleteConflict fileId path .remoteDeleted content (some parents))
        (.deleteConflict fileId path .localDeleted content (some parents'))
  | binary {fileId : String} {localPath remotePath : Path} {localContent remoteContent : Bytes}
      {localHlc remoteHlc : Hlc} {parents parents' : List String} (hp : parents.Perm parents') :
      Faces
        (.binaryConflict fileId localPath remotePath localContent remoteContent localHlc remoteHlc
          (some parents))
        (.binaryConflict fileId remotePath localPath remoteContent localContent remoteHlc localHlc
          (some parents'))

def Mirror (x y : MergeAction) : Prop := Faces x y ∨ Faces y x

theorem mirror_symm {x y : MergeAction} (h : Mirror x y) : Mirror y x := Or.symm h

/-- Both stores have the bytes of this hash. -/
def InBoth (A B : VaultState) (hash : String) : Prop :=
  ∃ content, A.contentStore.get hash = some content ∧ B.contentStore.get hash = some content

def StoresAgree (A B : VaultState) : Prop :=
  ∀ hash content content', A.contentStore.get hash = some content →
    B.contentStore.get hash = some content' → content = content'

/-- A file that both devices know, each at its own version. -/
structure Shared (dag : VersionDag) (A B : VaultState) (a b : FileEntry) (ha hb : String) :
    Prop where
  acyclic : Acyclic dag
  agree : StoresAgree A B
  oneHead : ¬ a.TwoHeaded
  oneHead' : ¬ b.TwoHeaded
  atHead : RecordedAt dag ha a
  atHead' : RecordedAt dag hb b
  bytes : a.deleted = false → InBoth A B a.contentHash
  bytes' : b.deleted = false → InBoth A B b.contentHash
  clocks : a.hlcTimestamp = b.hlcTimestamp → a.path = b.path ∧ a.contentHash = b.contentHash

/-- One device's live version and the other's tombstone that the deletion branches decide
differently: only one of the two asks for a merge node, and before looking at the base. -/
def Lopsided (dag : VersionDag) (live dead : FileEntry) : Prop :=
  live.deleted = false ∧ dead.deleted = true ∧
    (settledByPeer (some dag) dead live = true ∨
      settledByPeer (some dag) live dead = true ∧ Renamed live dead)

variable {P : Platform} {dag : VersionDag} {A B : VaultState} {a b : FileEntry}
  {ha hb fileId : String} {x : MergeAction}

theorem inBoth_symm {hash : String} (h : InBoth A B hash) : InBoth B A hash := by
  obtain ⟨content, hA, hB⟩ := h
  exact ⟨content, hB, hA⟩

theorem or_swap_of_agree (h : StoresAgree A B) (hash : String) :
    (B.contentStore.get hash).or (A.contentStore.get hash) =
      (A.contentStore.get hash).or (B.contentStore.get hash) := by
  cases hA : A.contentStore.get hash with
  | none => rw [Option.or_none, Option.none_or]
  | some content =>
      cases hB : B.contentStore.get hash with
      | none => rfl
      | some content' => rw [Option.some_or, Option.some_or, h hash content content' hA hB]

theorem baseOf_swap : resolveThreeWayBase b a (some dag) = resolveThreeWayBase a b (some dag) := by
  unfold resolveThreeWayBase knownHeads
  cases a.head with
  | none => cases b.head <;> rfl
  | some localHead =>
      cases b.head with
      | none => rfl
      | some remoteHead => simp only [mergeBase_comm (a := remoteHead)]

theorem ancestorText_swap {ancestorText : Text} (h : StoresAgree A B) :
    AncestorText P B A (some dag) b a ancestorText ↔
      AncestorText P A B (some dag) a b ancestorText := by
  simp only [AncestorText, baseOf_swap (a := a), or_swap_of_agree h]

section Shared

variable (h : Shared dag A B a b ha hb)

include h

theorem shared_symm : Shared dag B A b a hb ha where
  acyclic := h.acyclic
  agree hash content content' hB hA := (h.agree hash content' content hA hB).symm
  oneHead := h.oneHead'
  oneHead' := h.oneHead
  atHead := h.atHead'
  atHead' := h.atHead
  bytes hd := inBoth_symm (h.bytes' hd)
  bytes' hd := inBoth_symm (h.bytes hd)
  clocks hc := (h.clocks hc.symm).imp Eq.symm Eq.symm

theorem knownHeads_shared : knownHeads (some dag) a b = some (dag, ha, hb) :=
  knownHeads_of_heads h.atHead.1 h.atHead'.1

theorem headPair_shared : headPair a b = some [ha, hb] := by
  simp only [headPair, h.atHead.1, h.atHead'.1]

theorem atHead_shared : StateMerge.atHead dag ha a = true := decide_eq_true h.atHead.2

theorem not_both_ancestors (hne : a.contentHash ≠ b.contentHash)
    (hab : isAncestor dag ha hb = true) : isAncestor dag hb ha = false := by
  rw [Bool.eq_false_iff]
  intro hba
  have heq := isAncestor_antisymm h.acyclic (isAncestor_iff.1 hab) (isAncestor_iff.1 hba)
  refine hne (Option.some.inj ?_)
  rw [← h.atHead.2, ← h.atHead'.2, heq]

theorem sameContent_shared (fileId : String) (hd : a.deleted = false)
    (hpath : a.path = b.path) : ∃ content,
      resolveSameContent A B (some dag) fileId a b =
        if isAncestor dag hb ha then .noOp fileId
        else if isAncestor dag ha hb then adoptAction fileId b content
        else .writeMerge fileId a.path content [ha, hb] := by
  obtain ⟨content, hA, -⟩ := h.bytes hd
  refine ⟨content, ?_⟩
  simp only [resolveSameContent, knownHeads_shared h, if_neg (not_not.2 hpath), atHead_shared h,
    hA, Option.some_or, if_true]
  split
  · rename_i heq
    rw [heq, isAncestor_self, if_pos rfl]
  · rfl

theorem mirror_samePath (hd : a.deleted = false) (hd' : b.deleted = false)
    (hpath : a.path = b.path) :
    Mirror (resolveSameContent A B (some dag) fileId a b)
      (resolveSameContent B A (some dag) fileId b a) := by
  obtain ⟨content, hx⟩ := sameContent_shared h fileId hd hpath
  obtain ⟨content', hy⟩ := sameContent_shared (shared_symm h) fileId hd' hpath.symm
  rw [hx, hy]
  by_cases hba : isAncestor dag hb ha = true
  · by_cases hab : isAncestor dag ha hb = true
    · rw [if_pos hba, if_pos hab]
      exact Or.inl .settled
    · rw [if_pos hba, if_neg hab, if_pos hba]
      exact Or.inr .write
  · by_cases hab : isAncestor dag ha hb = true
    · rw [if_neg hba, if_pos hab, if_pos hab]
      exact Or.inl .write
    · rw [if_neg hba, if_neg hab, if_neg hab, if_neg hba, hpath]
      exact Or.inl (.merge (List.Perm.swap hb ha []))

theorem hlc_ne (hne : ¬ (a.path = b.path ∧ a.contentHash = b.contentHash)) :
    hlcCompare a.hlcTimestamp b.hlcTimestamp ≠ 0 := fun hc =>
  hne (h.clocks (hlcCompare_eq_zero_iff.1 hc))

theorem mirror_rename (hpath : a.path ≠ b.path) :
    Mirror (resolveRenameConflict fileId a b) (resolveRenameConflict fileId b a) := by
  have hne := hlc_ne h (fun he => hpath he.1)
  unfold resolveRenameConflict
  rw [hlcCompare_swap a.hlcTimestamp b.hlcTimestamp]
  by_cases hw : 0 ≤ hlcCompare a.hlcTimestamp b.hlcTimestamp
  · rw [if_pos hw, if_neg (by omega)]
    exact Or.inr .move
  · rw [if_neg hw, if_pos (by omega)]
    exact Or.inl .move

theorem mirror_sameContent (hd : a.deleted = false) (hd' : b.deleted = false) :
    Mirror (resolveSameContent A B (some dag) fileId a b)
      (resolveSameContent B A (some dag) fileId b a) := by
  by_cases hpath : a.path = b.path
  · exact mirror_samePath h hd hd' hpath
  · rw [resolveSameContent, if_pos hpath, resolveSameContent, if_pos (Ne.symm hpath)]
    exact mirror_rename h hpath

/-- The head that the other one descends from gives way. -/
theorem mirror_fastForward (P : Platform) (fileId : String) (hd' : b.deleted = false) (hne : a.contentHash ≠ b.contentHash)
    (hab : isAncestor dag ha hb = true) : ∃ content,
      resolveContentConflict P A B (some dag) fileId a b =
        some (adoptAction fileId b content) ∧
      resolveContentConflict P B A (some dag) fileId b a = some (.noOp fileId) := by
  obtain ⟨content, -, hB⟩ := h.bytes' hd'
  have hk := knownHeads_shared h
  have hk' := knownHeads_shared (shared_symm h)
  have hba := not_both_ancestors h hne hab
  refine ⟨content, ?_, ?_⟩
  · have hf : FastForwards (some dag) a b :=
      (fastForwards_iff hk).2 (by rw [atHead_shared h, hab, Bool.and_self])
    rw [contentConflict_fastForward h.oneHead hf, hB, Option.some_or]
  · refine contentConflict_ahead h.oneHead' (fun hf => ?_) ((ahead_iff hk').2 hab)
    rw [fastForwards_iff hk', hba, Bool.and_false] at hf
    cases hf

theorem divergent_shared (hab : isAncestor dag ha hb = false)
    (hba : isAncestor dag hb ha = false) : Divergent (some dag) a b := by
  have hk := knownHeads_shared h
  refine ⟨h.oneHead, fun hf => ?_, fun hh => ?_⟩
  · rw [fastForwards_iff hk, hab, Bool.and_false] at hf
    cases hf
  · rw [ahead_iff hk, hba] at hh
    cases hh

theorem laterOf_swap (hne : a.contentHash ≠ b.contentHash) : laterOf b a = laterOf a b := by
  have hc := hlc_ne h (fun he => hne he.2)
  unfold laterOf
  rw [hlcCompare_swap a.hlcTimestamp b.hlcTimestamp]
  by_cases hw : 0 ≤ hlcCompare a.hlcTimestamp b.hlcTimestamp
  · rw [if_pos hw, if_neg (by omega)]
  · rw [if_neg hw, if_pos (by omega)]

theorem mirror_cleanMerge (hne : a.contentHash ≠ b.contentHash) (content content' : Bytes) :
    Mirror (cleanMergeAction fileId a b content) (cleanMergeAction fileId b a content') := by
  unfold cleanMergeAction
  rw [headPair_shared h, headPair_shared (shared_symm h), laterOf_swap h hne]
  exact Or.inl (.merge (List.Perm.swap hb ha []))

theorem mirror_text (hne : a.contentHash ≠ b.contentHash) {content content' : Bytes}
    (hx : resolveText P A B fileId a b (resolveThreeWayBase a b (some dag)) (P.decode content)
      (P.decode content') = some x) :
    ∃ y, resolveText P B A fileId b a (resolveThreeWayBase b a (some dag)) (P.decode content')
      (P.decode content) = some y ∧ Mirror x y := by
  have hswap : [ha, hb].Perm [hb, ha] := List.Perm.swap hb ha []
  by_cases hex : ∃ ancestorText, AncestorText P A B (some dag) a b ancestorText
  · obtain ⟨ancestorText, ht⟩ := hex
    rw [text_merge ht] at hx
    obtain ⟨m, hm, rfl⟩ := Option.map_eq_some_iff.1 hx
    obtain ⟨m', hm', hexch⟩ := exchanged_threeWayMerge hm
    rw [text_merge ((ancestorText_swap h.agree).2 ht), hm']
    refine ⟨_, rfl, ?_⟩
    dsimp only
    rw [hexch.1, headPair_shared h, headPair_shared (shared_symm h)]
    split
    · exact Or.inl (.conflict hexch hswap)
    · exact mirror_cleanMerge h hne _ _
  · have hno := not_exists.1 hex
    have hno' : ∀ ancestorText, ¬ AncestorText P B A (some dag) b a ancestorText :=
      fun t ht => hno t ((ancestorText_swap h.agree).1 ht)
    rw [text_whole hno] at hx
    rw [text_whole hno']
    cases hx
    refine ⟨_, rfl, ?_⟩
    unfold wholeConflictAction
    rw [headPair_shared h, headPair_shared (shared_symm h)]
    exact Or.inl (.conflict ⟨rfl, rfl⟩ hswap)

theorem mirror_binary (hne : a.contentHash ≠ b.contentHash) (base : ThreeWayBase)
    (content content' : Bytes) :
    Mirror (resolveBinary fileId a b base content content')
      (resolveBinary fileId b a base content' content) := by
  have hconflict : Mirror
      (.binaryConflict fileId a.path b.path content content' a.hlcTimestamp b.hlcTimestamp
        (headPair a b))
      (.binaryConflict fileId b.path a.path content' content b.hlcTimestamp a.hlcTimestamp
        (headPair b a)) := by
    rw [headPair_shared h, headPair_shared (shared_symm h)]
    exact Or.inl (.binary (List.Perm.swap hb ha []))
  simp only [resolveBinary]
  split
  · rename_i baseHash _ _
    by_cases hlocal : a.contentHash = baseHash
    · have hremote : b.contentHash ≠ baseHash := fun he => hne (hlocal.trans he.symm)
      simp only [hlocal, hremote, ne_eq, not_true_eq_false, not_false_eq_true, decide_true,
        decide_false, Bool.not_true, Bool.not_false, Bool.and_true, Bool.and_false, if_true,
        Bool.false_eq_true, if_false]
      exact Or.inl .write
    · by_cases hremote : b.contentHash = baseHash
      · simp only [hlocal, hremote, ne_eq, not_true_eq_false, not_false_eq_true, decide_true,
          decide_false, Bool.not_true, Bool.not_false, Bool.and_true, Bool.and_false, if_true,
          Bool.false_eq_true, if_false]
        exact Or.inr .write
      · simpa only [hlocal, hremote, ne_eq, not_false_eq_true, decide_true, Bool.not_true,
          Bool.and_false, Bool.false_eq_true, if_false] using hconflict
  · exact hconflict

theorem mirror_divergent (hd : a.deleted = false) (hd' : b.deleted = false)
    (hne : a.contentHash ≠ b.contentHash)
    (hx : resolveDivergent P A B (some dag) fileId a b = some x) :
    ∃ y, resolveDivergent P B A (some dag) fileId b a = some y ∧ Mirror x y := by
  obtain ⟨content, hA, -⟩ := h.bytes hd
  obtain ⟨content', -, hB⟩ := h.bytes' hd'
  simp only [resolveDivergent, hA, hB] at hx ⊢
  rw [Bool.or_comm]
  split at hx
  · rename_i hbin
    cases hx
    rw [if_pos hbin, baseOf_swap (a := a)]
    exact ⟨_, rfl, mirror_binary h hne _ content content'⟩
  · rename_i hbin
    rw [if_neg hbin]
    exact mirror_text h hne hx

/-- Two live versions of one file are decided alike on the two devices. -/
theorem mirror_live (hd : a.deleted = false) (hd' : b.deleted = false)
    (hx : resolveBoth P A B (some dag) fileId a b = some x) :
    ∃ y, resolveBoth P B A (some dag) fileId b a = some y ∧ Mirror x y := by
  by_cases hsame : a.contentHash = b.contentHash
  · simp only [resolveBoth, hd, hd', if_pos hsame, if_pos hsame.symm] at hx ⊢
    cases hx
    exact ⟨_, rfl, mirror_sameContent h hd hd'⟩
  rw [both_of_differ hd hd' hsame] at hx
  rw [both_of_differ hd' hd (Ne.symm hsame)]
  by_cases hab : isAncestor dag ha hb = true
  · obtain ⟨content, hfirst, hsecond⟩ := mirror_fastForward h P fileId hd' hsame hab
    cases hfirst.symm.trans hx
    exact ⟨_, hsecond, Or.inl .write⟩
  by_cases hba : isAncestor dag hb ha = true
  · obtain ⟨content, hfirst, hsecond⟩ := mirror_fastForward (shared_symm h) P fileId hd
      (Ne.symm hsame) hba
    cases hsecond.symm.trans hx
    exact ⟨_, hfirst, Or.inr .write⟩
  rw [Bool.not_eq_true] at hab hba
  rw [contentConflict_divergent (divergent_shared h hab hba)] at hx
  rw [contentConflict_divergent (divergent_shared (shared_symm h) hba hab)]
  exact mirror_divergent h hd hd' hsame hx

theorem settledByPeer_iff : settledByPeer (some dag) a b = true ↔
    isMergeNode dag hb = true ∧ IsAncestor dag ha hb := by
  rw [← isAncestor_iff, ← Bool.and_eq_true, settledByPeer, knownHeads_shared h]

theorem unchanged_of_settled (hs : settledByPeer (some dag) a b = true) :
    isUnchangedSinceBase a b (some dag) = true ↔ ¬ Renamed a b := by
  rw [isUnchangedSinceBase_iff, knownHeads_shared h]
  refine and_iff_left ⟨dag, ha, hb, ha, rfl, ?_, h.atHead.2⟩
  rw [mergeBase_comm]
  exact mergeBase_of_isAncestor h.acyclic ((settledByPeer_iff h).1 hs).2

theorem mirror_deleted_iff (P : Platform) (fileId : String) (hd : a.deleted = false) (hd' : b.deleted = true) :
    ∃ x y, resolveBoth P A B (some dag) fileId a b = some x ∧
      resolveBoth P B A (some dag) fileId b a = some y ∧ (Mirror x y ↔ ¬ Lopsided dag a b) := by
  obtain ⟨content, hA, hB⟩ := h.bytes hd
  have hc : (A.contentStore.get a.contentHash).or (B.contentStore.get a.contentHash) =
      some content := by rw [hA, Option.some_or]
  have hdeleted : settledByPeer (some dag) a b = true ∨
      isUnchangedSinceBase a b (some dag) = true →
      resolveBoth P A B (some dag) fileId a b = some (.deleteLocal fileId a.path) :=
    both_deleteLocal hd hd'
  cases hs' : settledByPeer (some dag) b a with
  | true =>
      obtain ⟨restored, -, hy⟩ := both_readopt P fileId hd' hd hs' (Or.inl hB)
      unfold adoptAction at hy
      have hlop : Lopsided dag a b := ⟨hd, hd', Or.inl hs'⟩
      by_cases hgone : settledByPeer (some dag) a b = true ∨
          isUnchangedSinceBase a b (some dag) = true
      · refine ⟨_, _, hdeleted hgone, hy, iff_of_false ?_ (not_not.2 hlop)⟩
        rintro (hf | hf) <;> cases hf
      · rw [not_or, Bool.not_eq_true, Bool.not_eq_true] at hgone
        refine ⟨_, _, both_survive hd hd' hgone.1 hgone.2 hc, hy, iff_of_false ?_ (not_not.2 hlop)⟩
        generalize deleteParents a b = parents
        rintro (hf | hf) <;> cases hf
  | false =>
      cases hu : isUnchangedSinceBase a b (some dag) with
      | true =>
          refine ⟨_, .deleteRemote fileId a.path, hdeleted (Or.inr hu), ?_,
            iff_of_true (Or.inl .deletion) ?_⟩
          · simp only [resolveBoth, hd, hd', resolveLocalDeleted, hs', hu, if_true]
          · rintro ⟨-, -, hlop | ⟨hs, hr⟩⟩
            · cases hs'.symm.trans hlop
            · exact (unchanged_of_settled h hs).1 hu hr
      | false =>
          have hy : resolveBoth P B A (some dag) fileId b a =
              some (.deleteConflict fileId a.path .localDeleted content (deleteParents b a)) :=
            both_restore hd' hd hs' hu hc
          cases hs : settledByPeer (some dag) a b with
          | true =>
              have hr : Renamed a b := by
                by_contra hr
                cases hu.symm.trans ((unchanged_of_settled h hs).2 hr)
              refine ⟨_, _, hdeleted (Or.inl hs), hy, iff_of_false ?_
                (not_not.2 ⟨hd, hd', Or.inr ⟨hs, hr⟩⟩)⟩
              rintro (hf | hf) <;> cases hf
          | false =>
              refine ⟨_, _, both_survive hd hd' hs hu hc, hy, iff_of_true ?_ ?_⟩
              · unfold deleteParents
                rw [headPair_shared h, headPair_shared (shared_symm h)]
                exact Or.inl (.deleteConflict (List.Perm.swap hb ha []))
              · rintro ⟨-, -, hlop | ⟨hlop, -⟩⟩
                · cases hs'.symm.trans hlop
                · cases hs.symm.trans hlop

theorem mirror_iff (hx : resolveBoth P A B (some dag) fileId a b = some x) :
    ∃ y, resolveBoth P B A (some dag) fileId b a = some y ∧
      (Mirror x y ↔ ¬ Lopsided dag a b ∧ ¬ Lopsided dag b a) := by
  have hlive : ∀ {live dead : FileEntry}, dead.deleted = false → ¬ Lopsided dag live dead :=
    fun hdead hlop => by cases hdead.symm.trans hlop.2.1
  have hdead : ∀ {live dead : FileEntry}, live.deleted = true → ¬ Lopsided dag live dead :=
    fun hd hlop => by cases hd.symm.trans hlop.1
  cases hd : a.deleted with
  | false =>
      cases hd' : b.deleted with
      | false =>
          obtain ⟨y, hy, hmirror⟩ := mirror_live h hd hd' hx
          exact ⟨y, hy, iff_of_true hmirror ⟨hlive hd', hlive hd⟩⟩
      | true =>
          obtain ⟨x', y, hx', hy, hiff⟩ := mirror_deleted_iff h P fileId hd hd'
          cases hx.symm.trans hx'
          exact ⟨y, hy, hiff.trans (and_iff_left (hlive hd)).symm⟩
  | true =>
      cases hd' : b.deleted with
      | false =>
          obtain ⟨y, x', hy, hx', hiff⟩ := mirror_deleted_iff (shared_symm h) P fileId hd' hd
          cases hx.symm.trans hx'
          have hswap : Mirror x y ↔ Mirror y x := ⟨mirror_symm, mirror_symm⟩
          exact ⟨y, hy, hswap.trans (hiff.trans (and_iff_right (hlive hd')).symm)⟩
      | true =>
          simp only [resolveBoth, hd, hd'] at hx ⊢
          cases hx
          exact ⟨_, rfl, iff_of_true (Or.inl .settled) ⟨hdead hd, hdead hd'⟩⟩

end Shared

section Election

/-- The id that a run gives a path at which its own file meets the peer's: its own one, if
it answers for the peer's id by doing nothing. -/
def electedBy (actions : List MergeAction) (localId remoteId : String) : String :=
  if .noOp remoteId ∈ actions then localId else remoteId

theorem winner_swap (hne : a.id ≠ b.id) :
    pickCollisionWinner b a = .localSide ↔ pickCollisionWinner a b = .remoteSide := by
  unfold pickCollisionWinner
  simp only []
  rw [hlcCompare_swap a.hlcTimestamp b.hlcTimestamp]
  rcases Int.lt_trichotomy (hlcCompare a.hlcTimestamp b.hlcTimestamp) 0 with hc | hc | hc
  · simp [show ¬ 0 < hlcCompare a.hlcTimestamp b.hlcTimestamp by omega, hc]
  · rw [hc]
    by_cases hlt : b.id < a.id
    · simp [hlt, String.lt_asymm hlt]
    · have hgt : a.id < b.id := by
        by_contra hge
        exact hne (String.le_antisymm (String.not_lt.1 hlt) (String.not_lt.1 hge))
      simp [hlt, hgt]
  · simp [show ¬ hlcCompare a.hlcTimestamp b.hlcTimestamp < 0 by omega, hc]

theorem adoptRemoteId_noOp : adoptRemoteId A B a b true = .noOp b.id ∨
    ∃ content, adoptRemoteId A B a b true =
      .writeLocal b.id b.path content b.hlcTimestamp b.headVersionId := by
  unfold adoptRemoteId
  cases (B.contentStore.get b.contentHash).or (A.contentStore.get a.contentHash) with
  | none => exact Or.inl rfl
  | some content => exact Or.inr ⟨content, rfl⟩

theorem adoptRemoteId_ne (hb : InBoth A B b.contentHash) :
    adoptRemoteId A B a b true ≠ .noOp b.id := by
  obtain ⟨content, -, hB⟩ := hb
  unfold adoptRemoteId
  rw [hB]
  exact fun h => by cases h

theorem unrelated_noOp_iff (hca : InBoth A B a.contentHash) (hcb : InBoth A B b.contentHash) :
    resolveUnrelated P A B a b true = .noOp b.id ↔ pickCollisionWinner a b = .localSide := by
  obtain ⟨content, hA, -⟩ := hca
  obtain ⟨content', -, hB⟩ := id hcb
  simp only [resolveUnrelated, hA, hB, if_true]
  split
  · cases pickCollisionWinner a b with
    | remoteSide => exact iff_of_false (adoptRemoteId_ne hcb) (fun h => by cases h)
    | localSide => exact iff_of_true rfl rfl
  · cases pickCollisionWinner a b with
    | remoteSide =>
        rw [if_pos rfl]
        exact iff_of_false (fun h => by cases h) (fun h => by cases h)
    | localSide =>
        rw [if_neg (fun h => by cases h)]
        exact iff_of_true rfl rfl

/-- When the own file keeps the path. -/
theorem collision_noOp_iff (hha : a.head = some ha) (hhb : b.head = some hb)
    (hca : InBoth A B a.contentHash) (hcb : InBoth A B b.contentHash) :
    resolveCreateCollision P A B (some dag) a b true = .noOp b.id ↔
      isAncestor dag ha hb = false ∧
        (isAncestor dag hb ha = true ∨ pickCollisionWinner a b = .localSide) := by
  simp only [resolveCreateCollision, knownHeads_of_heads hha hhb]
  cases hab : isAncestor dag ha hb with
  | true =>
      rw [if_pos rfl]
      exact iff_of_false (adoptRemoteId_ne hcb) (fun h => by cases h.1)
  | false =>
      rw [if_neg (fun h => by cases h)]
      cases hba : isAncestor dag hb ha with
      | true =>
          rw [if_pos rfl]
          exact iff_of_true rfl ⟨rfl, Or.inl rfl⟩
      | false =>
          rw [if_neg (fun h => by cases h), unrelated_noOp_iff hca hcb]
          exact ⟨fun h => ⟨rfl, Or.inr h⟩, fun h => h.2.resolve_left (fun h => by cases h)⟩

theorem mirror_unrelated (hne : a.id ≠ b.id) (hha : a.head = some ha) (hhb : b.head = some hb) :
    Mirror (resolveUnrelated P A B a b true) (resolveUnrelated P B A b a false) := by
  have hadopt : Mirror (adoptRemoteId A B a b true) (.noOp b.id) := by
    rcases adoptRemoteId_noOp (A := A) (B := B) (a := a) (b := b) with h | ⟨content, h⟩
    · rw [h]
      exact Or.inl .settled
    · rw [h]
      exact Or.inl .write
  have hlater : resolveUnrelated P B A b a false = .noOp b.id ∨ a.contentHash ≠ b.contentHash := by
    by_cases hsame : a.contentHash = b.contentHash
    · left
      simp only [resolveUnrelated, if_pos hsame.symm, adoptRemoteId, Bool.false_eq_true, if_false]
      cases pickCollisionWinner b a <;> rfl
    · exact Or.inr hsame
  by_cases hsame : a.contentHash = b.contentHash
  · rw [hlater.resolve_right (not_not.2 hsame)]
    simp only [resolveUnrelated, if_pos hsame, if_true]
    cases pickCollisionWinner a b with
    | remoteSide => exact hadopt
    | localSide => exact Or.inl .settled
  · simp only [resolveUnrelated, if_neg hsame, if_neg (Ne.symm hsame), if_true,
      Bool.false_eq_true, if_false, winner_swap hne]
    cases A.contentStore.get a.contentHash with
    | none => cases B.contentStore.get b.contentHash <;> exact Or.inl .settled
    | some content =>
        cases B.contentStore.get b.contentHash with
        | none => exact Or.inl .settled
        | some content' =>
            dsimp only
            split
            · rw [headPair, headPair, hha, hhb]
              exact Or.inl (.conflict ⟨rfl, rfl⟩ (List.Perm.swap hb ha []))
            · exact Or.inl .settled

/-- The two devices' answers for a file that meets another one at its path. -/
theorem mirror_collision (hne : a.id ≠ b.id) (hha : a.head = some ha) (hhb : b.head = some hb) :
    Mirror (resolveCreateCollision P A B (some dag) a b true)
      (resolveCreateCollision P B A (some dag) b a false) := by
  simp only [resolveCreateCollision, knownHeads_of_heads hha hhb, knownHeads_of_heads hhb hha]
  by_cases hab : isAncestor dag ha hb = true
  · have hother : (if isAncestor dag hb ha = true then adoptRemoteId B A b a false
        else if isAncestor dag ha hb = true then .noOp b.id
        else resolveUnrelated P B A b a false) = .noOp b.id := by
      rw [if_pos hab]
      exact ite_self _
    rw [if_pos hab]
    simp only [Bool.false_eq_true, if_false, hother]
    rcases adoptRemoteId_noOp (A := A) (B := B) (a := a) (b := b) with h | ⟨content, h⟩
    · rw [h]
      exact Or.inl .settled
    · rw [h]
      exact Or.inl .write
  · rw [if_neg hab, if_neg hab]
    by_cases hba : isAncestor dag hb ha = true
    · rw [if_pos hba, if_pos hba]
      exact Or.inl .settled
    · rw [if_neg hba, if_neg hba]
      exact mirror_unrelated hne hha hhb

end Election

def Known (A B : VaultState) (e : FileEntry) : Prop :=
  A.fileEntries.get e.id = some e ∨ B.fileEntries.get e.id = some e

/-- Two vaults over one graph: no open conflict, each entry at a recorded version of its
own, the bytes of the live ones on both sides, and no clock reading for two versions. -/
structure Comparable (dag : VersionDag) (A B : VaultState) : Prop where
  acyclic : Acyclic dag
  agree : StoresAgree A B
  oneHead : ∀ e, Known A B e → ¬ e.TwoHeaded
  recorded : ∀ e, Known A B e → ∃ head, RecordedAt dag head e
  bytes : ∀ e, Known A B e → e.deleted = false → InBoth A B e.contentHash
  clocks : ∀ id a b, A.fileEntries.get id = some a → B.fileEntries.get id = some b →
    a.hlcTimestamp = b.hlcTimestamp → a.path = b.path ∧ a.contentHash = b.contentHash

/-- A file that one device has and the other does not, at the path of a live file of the other. -/
structure Meets (A B : VaultState) (a b : FileEntry) : Prop where
  here : A.fileEntries.get a.id = some a
  there : B.fileEntries.get b.id = some b
  new : A.fileEntries.get b.id = none
  live : b.deleted = false
  meet : (liveByPath A).get b.path = some a.id

/-- Live files at one path, each of an id that the other device does not have. -/
def Collide (A B : VaultState) (a b : FileEntry) : Prop := Meets A B a b ∧ Meets B A b a

theorem Meets.ids (h : Meets A B a b) : a.id ≠ b.id := by
  intro heq
  have hhere := h.here
  rw [heq, h.new] at hhere
  cases hhere

theorem shared_of_comparable (h : Comparable dag A B) (hA : A.fileEntries.get fileId = some a)
    (hB : B.fileEntries.get fileId = some b) : ∃ ha hb, Shared dag A B a b ha hb := by
  have hida := FileEntries.get_id hA
  have hidb := FileEntries.get_id hB
  have hka : Known A B a := Or.inl (hida ▸ hA)
  have hkb : Known A B b := Or.inr (hidb ▸ hB)
  obtain ⟨ha, hra⟩ := h.recorded a hka
  obtain ⟨hb, hrb⟩ := h.recorded b hkb
  exact ⟨ha, hb, h.acyclic, h.agree, h.oneHead a hka, h.oneHead b hkb, hra, hrb, h.bytes a hka,
    h.bytes b hkb, h.clocks fileId a b hA hB⟩

def MirroredAt (actions actions' : List MergeAction) (id : String) : Prop :=
  ∀ x ∈ actions, ∀ y ∈ actions', x.fileId = id → y.fileId = id → Mirror x y

/-- What one device does about each file both know mirrors what the other one does. -/
def Mirrored (A B : VaultState) (actions actions' : List MergeAction) : Prop :=
  ∀ id a b, A.fileEntries.get id = some a → B.fileEntries.get id = some b →
    MirroredAt actions actions' id

theorem exists_actionFor (h : ∀ a b, A.fileEntries.get fileId = some a →
      B.fileEntries.get fileId = some b → ∃ x, actionFor P A B (some dag) fileId = some x) :
    ∃ x, actionFor P A B (some dag) fileId = some x := by
  cases hA : A.fileEntries.get fileId with
  | none =>
      cases hB : B.fileEntries.get fileId with
      | none => exact ⟨.noOp fileId, by rw [actionFor, hA, hB]; rfl⟩
      | some b => exact ⟨_, actionFor_remoteOnly hA hB⟩
  | some a =>
      cases hB : B.fileEntries.get fileId with
      | none => exact ⟨_, actionFor_localOnly hA hB⟩
      | some b => exact h a b hA hB

theorem exists_merge (h : ∀ id a b, A.fileEntries.get id = some a →
      B.fileEntries.get id = some b → ∃ x, actionFor P A B (some dag) id = some x) :
    ∃ r, mergeVaultStates P A B (some dag) = some r := by
  have hall : ∀ l : List String, ∃ actions, l.mapM (actionFor P A B (some dag)) = some actions := by
    intro l
    induction l with
    | nil => exact ⟨[], rfl⟩
    | cons id rest ih =>
        obtain ⟨x, hx⟩ := exists_actionFor (h id)
        obtain ⟨actions, hactions⟩ := ih
        exact ⟨x :: actions, by rw [List.mapM_cons, hx, hactions]; rfl⟩
  obtain ⟨actions, hactions⟩ := hall (allIds A B)
  exact ⟨_, by rw [mergeVaultStates, hactions]; rfl⟩

/-- The answers of both runs for a file that both devices know. -/
theorem answers_of_merge (h : Comparable dag A B) {r : StateMergeResult}
    (hm : mergeVaultStates P A B (some dag) = some r) (hA : A.fileEntries.get fileId = some a)
    (hB : B.fileEntries.get fileId = some b) :
    ∃ x y, actionFor P A B (some dag) fileId = some x ∧
      actionFor P B A (some dag) fileId = some y ∧
      (Mirror x y ↔ ¬ Lopsided dag a b ∧ ¬ Lopsided dag b a) := by
  obtain ⟨ha, hb, hs⟩ := shared_of_comparable h hA hB
  obtain ⟨x, -, hx⟩ := exists_action hm (mem_allIds.2 (Or.inl ⟨a, hA⟩))
  rw [actionFor_both hA hB] at hx
  obtain ⟨y, hy, hiff⟩ := mirror_iff hs hx
  refine ⟨x, y, ?_, ?_, hiff⟩
  · rw [actionFor_both hA hB, hx]
  · rw [actionFor_both hB hA, hy]

theorem comparable_symm (h : Comparable dag A B) : Comparable dag B A where
  acyclic := h.acyclic
  agree hash content content' hB hA := (h.agree hash content' content hA hB).symm
  oneHead e he := h.oneHead e he.symm
  recorded e he := h.recorded e he.symm
  bytes e he hlive := inBoth_symm (h.bytes e he.symm hlive)
  clocks id b a hB hA hc := (h.clocks id a b hA hB hc.symm).imp Eq.symm Eq.symm

/-- The holder's device answers for the other file by the collision rule. -/
theorem action_of_meets (h : Meets A B a b) : actionFor P A B (some dag) b.id =
    some (resolveCreateCollision P A B (some dag) a b true) := by
  rw [actionFor_remoteOnly h.new h.there, resolveRemoteOnly_held h.live h.new h.meet h.here]

theorem action_of_met (h : Meets A B a b) : actionFor P B A (some dag) b.id =
    some (resolveCreateCollision P B A (some dag) b a false) := by
  rw [actionFor_localOnly h.there h.new, resolveLocalOnly_held h.live h.new h.meet h.here]

theorem mirroredAt_of_actionFor {x y : MergeAction} {r r' : StateMergeResult}
    (hm : mergeVaultStates P A B (some dag) = some r)
    (hm' : mergeVaultStates P B A (some dag) = some r') (hid : fileId ∈ allIds A B)
    (hid' : fileId ∈ allIds B A) (hx : actionFor P A B (some dag) fileId = some x)
    (hy : actionFor P B A (some dag) fileId = some y) :
    MirroredAt r.actions r'.actions fileId ↔ Mirror x y := by
  constructor
  · intro hall
    obtain ⟨hxm, hxid⟩ := (mem_actions_iff hm hid).2 hx
    obtain ⟨hym, hyid⟩ := (mem_actions_iff hm' hid').2 hy
    exact hall x hxm y hym hxid hyid
  · intro hxy x' hx' y' hy' hxid hyid
    cases hx.symm.trans ((mem_actions_iff hm hid).1 ⟨hx', hxid⟩)
    cases hy.symm.trans ((mem_actions_iff hm' hid').1 ⟨hy', hyid⟩)
    exact hxy

theorem mirroredAt_of_meets (h : Comparable dag A B) (hmeets : Meets A B a b)
    {r r' : StateMergeResult} (hm : mergeVaultStates P A B (some dag) = some r)
    (hm' : mergeVaultStates P B A (some dag) = some r') :
    MirroredAt r.actions r'.actions b.id := by
  obtain ⟨ha, hra⟩ := h.recorded a (Or.inl hmeets.here)
  obtain ⟨hb, hrb⟩ := h.recorded b (Or.inr hmeets.there)
  exact (mirroredAt_of_actionFor hm hm' (mem_allIds.2 (Or.inr ⟨b, hmeets.there⟩))
    (mem_allIds.2 (Or.inl ⟨b, hmeets.there⟩)) (action_of_meets hmeets) (action_of_met hmeets)).2
      (mirror_collision hmeets.ids hra.1 hrb.1)

/-- A run keeps its own id exactly where the own file keeps the path. -/
theorem noOp_mem_iff (h : Comparable dag A B) (hmeets : Meets A B a b) (hlive : a.deleted = false)
    (hha : a.head = some ha) (hhb : b.head = some hb) {r : StateMergeResult}
    (hm : mergeVaultStates P A B (some dag) = some r) : .noOp b.id ∈ r.actions ↔
      isAncestor dag ha hb = false ∧
        (isAncestor dag hb ha = true ∨ pickCollisionWinner a b = .localSide) := by
  rw [← collision_noOp_iff (P := P) hha hhb (h.bytes a (Or.inl hmeets.here) hlive)
    (h.bytes b (Or.inr hmeets.there) hmeets.live)]
  have hmem := mem_actions_iff (a := .noOp b.id) hm (mem_allIds.2 (Or.inr ⟨b, hmeets.there⟩))
  rw [action_of_meets hmeets, Option.some.injEq] at hmem
  exact (and_iff_left (show (MergeAction.noOp b.id).fileId = b.id from rfl)).symm.trans hmem

theorem elected_iff (h : Comparable dag A B) (hc : Collide A B a b) {r r' : StateMergeResult}
    (hm : mergeVaultStates P A B (some dag) = some r)
    (hm' : mergeVaultStates P B A (some dag) = some r') :
    electedBy r.actions a.id b.id = electedBy r'.actions b.id a.id ↔ a.head ≠ b.head := by
  obtain ⟨hab, hba⟩ := hc
  obtain ⟨ha, hra⟩ := h.recorded a (Or.inl hab.here)
  obtain ⟨hb, hrb⟩ := h.recorded b (Or.inr hab.there)
  have hkeeps := noOp_mem_iff h hab hba.live hra.1 hrb.1 hm
  have hkeeps' := noOp_mem_iff (comparable_symm h) hba hab.live hrb.1 hra.1 hm'
  rw [winner_swap hab.ids] at hkeeps'
  have hids : a.id ≠ b.id := hab.ids
  have hopposite : electedBy r.actions a.id b.id = electedBy r'.actions b.id a.id ↔
      (.noOp b.id ∈ r.actions ↔ ¬ .noOp a.id ∈ r'.actions) := by
    unfold electedBy
    by_cases hk : .noOp b.id ∈ r.actions <;> by_cases hk' : .noOp a.id ∈ r'.actions <;>
      simp [hk, hk', hids, hids.symm]
  rw [hopposite, hkeeps, hkeeps', hra.1, hrb.1, ne_eq, Option.some.injEq]
  by_cases heq : ha = hb
  · subst heq
    simp [isAncestor_self]
  · have hone : isAncestor dag ha hb = true → isAncestor dag hb ha = false := by
      intro hab'
      rw [Bool.eq_false_iff]
      intro hba'
      exact heq (isAncestor_antisymm h.acyclic (isAncestor_iff.1 hab') (isAncestor_iff.1 hba'))
    cases hw : pickCollisionWinner a b <;> cases hab' : isAncestor dag ha hb <;>
      cases hba' : isAncestor dag hb ha <;> simp_all

/-- Two devices reach mirrored decisions exactly when no file is a tombstone here and a
related live version there that only one of the two settles, and no version heads two files
at one path. A file that only meets another one at its path is decided alike in any case. -/
theorem mergeVaultStates_mirrors_iff {P : Platform} {dag : VersionDag} {A B : VaultState}
    {r : StateMergeResult} (h : Comparable dag A B)
    (hm : mergeVaultStates P A B (some dag) = some r) :
    ∃ r', mergeVaultStates P B A (some dag) = some r' ∧
      (∀ a b, Meets A B a b ∨ Meets B A a b → MirroredAt r.actions r'.actions b.id) ∧
      (Mirrored A B r.actions r'.actions ∧
          (∀ a b, Collide A B a b →
            electedBy r.actions a.id b.id = electedBy r'.actions b.id a.id) ↔
        (∀ id a b, A.fileEntries.get id = some a → B.fileEntries.get id = some b →
            ¬ Lopsided dag a b ∧ ¬ Lopsided dag b a) ∧
          ∀ a b, Collide A B a b → a.head ≠ b.head) := by
  have hback : ∃ r', mergeVaultStates P B A (some dag) = some r' := by
    refine exists_merge (fun id b a hB hA => ?_)
    obtain ⟨x, y, -, hy, -⟩ := answers_of_merge h hm hA hB
    exact ⟨y, hy⟩
  obtain ⟨r', hm'⟩ := hback
  refine ⟨r', hm', ?_, and_congr ?_ ?_⟩
  · rintro a b (hmeets | hmeets)
    · exact mirroredAt_of_meets h hmeets hm hm'
    · intro x hx y hy hxid hyid
      exact mirror_symm (mirroredAt_of_meets (comparable_symm h) hmeets hm' hm y hy x hx hyid hxid)
  · refine forall_congr' fun id => forall_congr' fun a => forall_congr' fun b =>
      forall_congr' fun hA => forall_congr' fun hB => ?_
    obtain ⟨x, y, hx, hy, hiff⟩ := answers_of_merge h hm hA hB
    rw [← hiff]
    exact mirroredAt_of_actionFor hm hm' (mem_allIds.2 (Or.inl ⟨a, hA⟩))
      (mem_allIds.2 (Or.inl ⟨b, hB⟩)) hx hy
  · exact forall_congr' fun a => forall_congr' fun b => forall_congr' fun hc =>
      elected_iff h hc hm hm'

section Example

/-- A deletion `t`, and the merge node `mto` by which a peer kept the file after all. -/
def settledDag : VersionDag :=
  addVersion (addVersion (addVersion .empty "t" [] "H" "f") "o" [] "H" "f") "mto" ["t", "o"] "H" "f"

def kept : FileEntry := { fileAt "f" "n.md" "H" 2 with headVersionId := some "mto" }

def deletedBefore : FileEntry :=
  { fileAt "f" "n.md" "H" 1 with headVersionId := some "t", deleted := true }

def olderLive : FileEntry := { fileAt "f" "n.md" "H" 1 with headVersionId := some "t" }

theorem mem_of_get_stateOf {entries : List FileEntry} {contents : List (String × Bytes)}
    {id : String} {e : FileEntry}
    (he : (stateOf entries contents).fileEntries.get id = some e) : e ∈ entries := by
  induction entries using List.reverseRecOn with
  | nil => cases he
  | append_singleton rest e' ih =>
      simp only [stateOf, FileEntries.ofList, List.foldl_concat, FileEntries.get_set] at he
      split at he
      · exact List.mem_append_right _ (List.mem_singleton.2 (Option.some.inj he).symm)
      · exact List.mem_append_left _ (ih he)

theorem mem_of_known {entries entries' : List FileEntry} {contents : List (String × Bytes)}
    {e : FileEntry} (he : Known (stateOf entries contents) (stateOf entries' contents) e) :
    e ∈ entries ++ entries' :=
  List.mem_append.2 (he.imp mem_of_get_stateOf mem_of_get_stateOf)

theorem comparable_stateOf {entries entries' : List FileEntry} {contents : List (String × Bytes)}
    (hacyclic : Acyclic dag)
    (hentries : ∀ e ∈ entries ++ entries', ¬ e.TwoHeaded ∧ (∃ head, RecordedAt dag head e) ∧
      ∃ content, (JsMap.ofList contents).get e.contentHash = some content)
    (hclocks : ∀ a ∈ entries, ∀ b ∈ entries', a.hlcTimestamp ≠ b.hlcTimestamp) :
    Comparable dag (stateOf entries contents) (stateOf entries' contents) := by
  refine ⟨hacyclic, ?_, ?_, ?_, ?_, ?_⟩
  · intro hash content content' hA hB
    exact Option.some.inj (hA.symm.trans hB)
  · exact fun e he => (hentries e (mem_of_known he)).1
  · exact fun e he => (hentries e (mem_of_known he)).2.1
  · intro e he _
    obtain ⟨content, hc⟩ := (hentries e (mem_of_known he)).2.2
    exact ⟨content, hc, hc⟩
  · intro id a b ha hb hc
    exact absurd hc (hclocks a (mem_of_get_stateOf ha) b (mem_of_get_stateOf hb))

/-- Two new notes at one path, on either device. -/
def ours : FileEntry := { fileAt "g" "m.md" "G" 3 with headVersionId := some "gone" }

def theirs : FileEntry := { fileAt "k" "m.md" "K" 4 with headVersionId := some "kone" }

def metDag : VersionDag :=
  addVersion (addVersion settledDag "gone" [] "G" "g") "kone" [] "K" "k"

def bytesOfAll : List (String × Bytes) := [("H", [72]), ("G", [71]), ("K", [75])]

def here : VaultState := stateOf [kept, ours] bytesOfAll

def there : VaultState := stateOf [olderLive, theirs] bytesOfAll

theorem comparable_met : Comparable metDag here there := by
  refine comparable_stateOf (acyclic_of_rank String.length (by decide)) ?_ (by decide)
  intro e he
  simp only [List.cons_append, List.nil_append, List.mem_cons, List.not_mem_nil, or_false] at he
  rcases he with rfl | rfl | rfl | rfl
  · exact ⟨by decide, ⟨"mto", by decide, by decide⟩, [72], by decide⟩
  · exact ⟨by decide, ⟨"gone", by decide, by decide⟩, [71], by decide⟩
  · exact ⟨by decide, ⟨"t", by decide, by decide⟩, [72], by decide⟩
  · exact ⟨by decide, ⟨"kone", by decide, by decide⟩, [75], by decide⟩

/-- Both devices give the path to the later of the two new notes. -/
theorem mergeVaultStates_mirrors_example :
    ∃ r r', mergeVaultStates asciiPlatform here there (some metDag) = some r ∧
      mergeVaultStates asciiPlatform there here (some metDag) = some r' ∧
      Mirrored here there r.actions r'.actions ∧ electedBy r.actions "g" "k" = "k" ∧
      electedBy r'.actions "k" "g" = "k" := by
  have hrun : mergeVaultStates asciiPlatform here there (some metDag) =
      some ⟨[.noOp "f", .noOp "g", .conflict "k" "m.md" "m.md" (wholeFileConflict ['G'] ['K'])
        ['G'] ['K'] (some ["gone", "kone"])], ⟨0, 0, "a"⟩⟩ := by decide
  obtain ⟨r', hrun', -, hiff⟩ := mergeVaultStates_mirrors_iff comparable_met hrun
  have hnone : ∀ id a b, here.fileEntries.get id = some a → there.fileEntries.get id = some b →
      ¬ Lopsided metDag a b ∧ ¬ Lopsided metDag b a := by
    intro id a b ha hb
    have hlive : ∀ e ∈ [kept, ours] ++ [olderLive, theirs], e.deleted = false := by decide
    have hla := hlive a (List.mem_append_left _ (mem_of_get_stateOf ha))
    have hlb := hlive b (List.mem_append_right _ (mem_of_get_stateOf hb))
    exact ⟨fun h => (by cases hlb.symm.trans h.2.1), fun h => by cases hla.symm.trans h.2.1⟩
  have hheads : ∀ a b, Collide here there a b → a.head ≠ b.head := by
    intro a b hc
    have hdiffer : ∀ a ∈ [kept, ours], ∀ b ∈ [olderLive, theirs], a.head ≠ b.head := by decide
    exact hdiffer a (mem_of_get_stateOf hc.1.here) b (mem_of_get_stateOf hc.1.there)
  obtain ⟨hmirrored, helected⟩ := hiff.2 ⟨hnone, hheads⟩
  have hcollide : Collide here there ours theirs :=
    ⟨⟨by decide, by decide, by decide, rfl, by decide⟩,
      ⟨by decide, by decide, by decide, rfl, by decide⟩⟩
  exact ⟨_, r', hrun, hrun', hmirrored, by decide,
    (helected ours theirs hcollide).symm.trans (by decide)⟩

theorem comparable_settled : Comparable settledDag (stateOf [kept] [("H", [72])])
    (stateOf [deletedBefore] [("H", [72])]) := by
  refine comparable_stateOf (acyclic_of_rank String.length (by decide)) ?_ (by decide)
  intro e he
  simp only [List.cons_append, List.nil_append, List.mem_cons, List.not_mem_nil, or_false] at he
  rcases he with rfl | rfl
  · exact ⟨by decide, ⟨"mto", by decide, by decide⟩, [72], by decide⟩
  · exact ⟨by decide, ⟨"t", by decide, by decide⟩, [72], by decide⟩

/-- The device that holds the settled file deletes it; the one that deleted it restores it. -/
theorem mergeVaultStates_not_mirrored :
    ¬ ∀ (P : Platform) (dag : VersionDag) (A B : VaultState) (r r' : StateMergeResult),
      Comparable dag A B → (∀ hash, A.contentStore.get hash = B.contentStore.get hash) →
      (∀ e e', Known A B e → Known A B e' → e.hlcTimestamp = e'.hlcTimestamp → e = e') →
      mergeVaultStates P A B (some dag) = some r → mergeVaultStates P B A (some dag) = some r' →
      Mirrored A B r.actions r'.actions := by
  intro h
  have hrun : mergeVaultStates asciiPlatform (stateOf [kept] [("H", [72])])
      (stateOf [deletedBefore] [("H", [72])]) (some settledDag) =
        some ⟨[.deleteLocal "f" "n.md"], ⟨0, 0, "a"⟩⟩ := by decide
  have hrun' : mergeVaultStates asciiPlatform (stateOf [deletedBefore] [("H", [72])])
      (stateOf [kept] [("H", [72])]) (some settledDag) =
        some ⟨[adoptAction "f" kept [72]], ⟨0, 0, "a"⟩⟩ := by decide
  have hclocks : ∀ e e', Known (stateOf [kept] [("H", [72])]) (stateOf [deletedBefore] [("H", [72])])
      e → Known (stateOf [kept] [("H", [72])]) (stateOf [deletedBefore] [("H", [72])]) e' →
      e.hlcTimestamp = e'.hlcTimestamp → e = e' := by
    intro e e' he he' hc
    have hmem := mem_of_known he
    have hmem' := mem_of_known he'
    simp only [List.cons_append, List.nil_append, List.mem_cons, List.not_mem_nil, or_false]
      at hmem hmem'
    rcases hmem with rfl | rfl <;> rcases hmem' with rfl | rfl
    · rfl
    · exact absurd hc (by decide)
    · exact absurd hc (by decide)
    · rfl
  have hmirror := h asciiPlatform settledDag _ _ _ _ comparable_settled (fun _ => rfl) hclocks hrun hrun' "f"
    kept deletedBefore rfl rfl _ List.mem_cons_self _ List.mem_cons_self rfl rfl
  unfold adoptAction at hmirror
  rcases hmirror with hf | hf <;> cases hf

end Example

end OpsBlobs.MirroredMerge
