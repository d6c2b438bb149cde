import OpsBlobs.ServerPull
import Mathlib.Data.List.MinMax
import Mathlib.Data.Prod.Lex
import Mathlib.Data.List.Lex
import Mathlib.Order.Lex

namespace OpsBlobs.RemoteProjection

open Types Hlc CodeUnits ServerPull

section Projection

/-- Authorship lives in the HLC. -/
def foreign (ownDeviceId : Option String) (op : Operation) : Bool :=
  ownDeviceId ≠ some op.hlcTimestamp.deviceId

/-- A move is no new content version: its head is the one that it renamed. -/
def projectedHead (op : Operation) : String :=
  match op.type with
  | .move => op.parents.head?.getD op.id
  | _ => op.id

def projectedEntry (op : Operation) : FileEntry where
  id := op.fileId
  path := op.path
  contentHash := op.contentHash
  hlcTimestamp := op.hlcTimestamp
  deleted := op.type = .delete
  lastSyncedPath := none
  headVersionId := some (projectedHead op)
  conflictParents := none
  mtime := none
  size := none

structure Projected where
  fileEntries : FileEntries
  maxHlc : Option Hlc

def projectOp (ownDeviceId : Option String) (p : Projected) (op : Operation) : Projected :=
  if !foreign ownDeviceId op then p
  else
    { maxHlc := if p.maxHlc.all (fun m => 0 < hlcCompare op.hlcTimestamp m)
        then some op.hlcTimestamp else p.maxHlc
      fileEntries := if (p.fileEntries.get op.fileId).any (fun existing =>
          0 ≤ hlcCompare existing.hlcTimestamp op.hlcTimestamp)
        then p.fileEntries else p.fileEntries.set (projectedEntry op) }

def reconstructRemoteState (ops : List Operation) (ownDeviceId : Option String) : VaultState :=
  let p := ops.foldl (projectOp ownDeviceId) ⟨.empty, none⟩
  { deviceId := "server"
    hlc := p.maxHlc.getD ⟨0, 0, "server"⟩
    fileEntries := p.fileEntries
    pendingOps := ops
    contentStore := .empty }

end Projection

section Latest

abbrev Rank := ℕ ×ₗ ℕ ×ₗ Units

def rank (h : Hlc) : Rank := toLex (h.wallTime, toLex (h.counter, units h.deviceId))

theorem rank_inj {a b : Hlc} (h : rank a = rank b) : a = b := by
  cases a
  cases b
  simp only [rank, EmbeddingLike.apply_eq_iff_eq, Prod.mk.injEq] at h
  rw [h.1, h.2.1, units_inj h.2.2]

theorem hlcCompare_pos_iff (a b : Hlc) : 0 < hlcCompare a b ↔ rank b < rank a := by
  rw [rank, rank, Prod.Lex.toLex_lt_toLex, Prod.Lex.toLex_lt_toLex]
  unfold hlcCompare
  split
  · rename_i hw
    simp only
    omega
  · rename_i hw
    rw [not_ne_iff] at hw
    split
    · rename_i hc
      simp only
      omega
    · rename_i hc
      rw [not_ne_iff] at hc
      simp only [hw, hc, lt_irrefl, false_or, true_and]
      split
      · rename_i hlt
        simp [lt_asymm hlt]
      · rename_i hlt
        split
        · rename_i hgt
          simp [hgt]
        · rename_i hgt
          simp [hgt]

theorem hlcCompare_nonneg_iff (a b : Hlc) : 0 ≤ hlcCompare a b ↔ ¬rank a < rank b := by
  rw [← hlcCompare_pos_iff, hlcCompare_swap]
  omega

/-- The latest of some ops; of several with one HLC the first. -/
def latest (ops : List Operation) : Option Operation := ops.argmax fun op => rank op.hlcTimestamp

variable {own : Option String} {ops ops' : List Operation} {op : Operation} {fileId : String}

theorem latest_concat (ops : List Operation) (op : Operation) :
    latest (ops ++ [op]) =
      if (latest ops).all (fun m => rank m.hlcTimestamp < rank op.hlcTimestamp) then some op
      else latest ops := by
  rw [latest, List.argmax_concat, ← latest]
  cases latest ops with
  | none => rfl
  | some m => simp

def ofFile (own : Option String) (fileId : String) (ops : List Operation) : List Operation :=
  ops.filter fun op => foreign own op && op.fileId = fileId

theorem projected_latest (own : Option String) (ops : List Operation) (fileId : String) :
    (ops.foldl (projectOp own) ⟨.empty, none⟩).fileEntries.get fileId =
      (latest (ofFile own fileId ops)).map projectedEntry := by
  induction ops using List.reverseRecOn with
  | nil => rfl
  | append_singleton ops op ih =>
      rw [List.foldl_concat, projectOp, ofFile, List.filter_append]
      by_cases hforeign : foreign own op = true
      · simp only [hforeign, Bool.not_true, Bool.false_eq_true, if_false]
        by_cases hfile : op.fileId = fileId
        · subst hfile
          have hone : [op].filter (fun o => foreign own o && o.fileId = op.fileId) = [op] := by
            simp [hforeign]
          rw [hone, ← ofFile, latest_concat, ih]
          cases hlatest : latest (ofFile own op.fileId ops) with
          | none => simp [FileEntries.get_set, projectedEntry]
          | some m =>
              simp only [Option.map_some, Option.any_some, Option.all_some, decide_eq_true_eq,
                hlcCompare_nonneg_iff]
              rw [show (projectedEntry m).hlcTimestamp = m.hlcTimestamp from rfl]
              by_cases hlt : rank m.hlcTimestamp < rank op.hlcTimestamp
              · rw [if_neg (not_not.2 hlt), if_pos hlt, FileEntries.get_set]
                exact if_pos rfl
              · rw [if_pos hlt, if_neg hlt, ih, hlatest]
        · have hnone : [op].filter (fun o => foreign own o && o.fileId = fileId) = [] := by
            simp [hfile]
          rw [hnone, List.append_nil, ← ofFile, ← ih]
          split
          · rfl
          · exact (FileEntries.get_set _ _ _).trans (if_neg hfile)
      · have hnone : [op].filter (fun o => foreign own o && o.fileId = fileId) = [] := by
          simp [hforeign]
        rw [hnone, List.append_nil, ← ofFile, ← ih]
        simp [hforeign]

theorem projected_maxHlc (own : Option String) (ops : List Operation) :
    (ops.foldl (projectOp own) ⟨.empty, none⟩).maxHlc =
      (latest (ops.filter (foreign own))).map Operation.hlcTimestamp := by
  induction ops using List.reverseRecOn with
  | nil => rfl
  | append_singleton ops op ih =>
      rw [List.foldl_concat, projectOp, List.filter_append, List.filter_singleton]
      by_cases hforeign : foreign own op = true
      · simp only [hforeign, Bool.not_true, Bool.false_eq_true, if_false, cond_true]
        rw [latest_concat, ih]
        cases hlatest : latest (ops.filter (foreign own)) with
        | none => rfl
        | some m =>
            simp only [Option.map_some, Option.all_some, decide_eq_true_eq, hlcCompare_pos_iff]
            by_cases hlt : rank m.hlcTimestamp < rank op.hlcTimestamp
            · rw [if_pos hlt, if_pos hlt, Option.map_some]
            · rw [if_neg hlt, if_neg hlt, Option.map_some]
      · simp [hforeign, ih]

/-- No two foreign ops of one file carry one HLC. -/
def Stamped (own : Option String) (ops : List Operation) : Prop :=
  ∀ op ∈ ops, ∀ op' ∈ ops, foreign own op = true → foreign own op' = true →
    op.fileId = op'.fileId → op.hlcTimestamp = op'.hlcTimestamp → op = op'

theorem mem_ofFile : op ∈ ofFile own fileId ops ↔
    op ∈ ops ∧ foreign own op = true ∧ op.fileId = fileId := by
  rw [ofFile, List.mem_filter, Bool.and_eq_true, decide_eq_true_eq]

theorem latest_iff {l : List Operation}
    (h : ∀ op ∈ l, ∀ op' ∈ l, op.hlcTimestamp = op'.hlcTimestamp → op = op') :
    latest l = some op ↔ op ∈ l ∧ ∀ op' ∈ l, 0 ≤ hlcCompare op.hlcTimestamp op'.hlcTimestamp := by
  rw [latest, List.argmax_eq_some_iff]
  simp only [hlcCompare_nonneg_iff, not_lt]
  constructor
  · rintro ⟨hop, hmax, -⟩
    exact ⟨hop, hmax⟩
  · rintro ⟨hop, hmax⟩
    refine ⟨hop, hmax, fun op' hop' hle => ?_⟩
    rw [h op hop op' hop' (rank_inj (le_antisymm hle (hmax op' hop')))]

/-- The reading of a foreign op, and none of them is later. -/
structure LatestForeign (own : Option String) (ops : List Operation) (hlc : Hlc) : Prop where
  read : ∃ op ∈ ops, foreign own op = true ∧ op.hlcTimestamp = hlc
  latest : ∀ op ∈ ops, foreign own op = true → 0 ≤ hlcCompare hlc op.hlcTimestamp

theorem latestForeign_hlc (h : ∃ op ∈ ops, foreign own op = true) :
    LatestForeign own ops (reconstructRemoteState ops own).hlc := by
  obtain ⟨op, hop, hforeign⟩ := h
  cases hlatest : latest (ops.filter (foreign own)) with
  | none =>
      have hnil := List.argmax_eq_none.1 hlatest
      have hmem := List.mem_filter.2 ⟨hop, hforeign⟩
      rw [hnil] at hmem
      cases hmem
  | some m =>
      have hhlc : (reconstructRemoteState ops own).hlc = m.hlcTimestamp := by
        change Option.getD _ _ = _
        rw [projected_maxHlc, hlatest, Option.map_some, Option.getD_some]
      obtain ⟨hm, hforeign'⟩ := List.mem_filter.1 (List.argmax_mem hlatest)
      rw [hhlc]
      refine ⟨⟨m, hm, hforeign', rfl⟩, fun op' hop' hof => ?_⟩
      rw [hlcCompare_nonneg_iff, not_lt]
      exact (List.argmax_eq_some_iff.1 hlatest).2.1 op' (List.mem_filter.2 ⟨hop', hof⟩)

/-- The projection keeps of every file the latest op that another device wrote, and its clock is
the latest of all of these: in whatever order, over however many pages and how often each op was
pulled. -/
theorem reconstructRemoteState_orderFree (hs : Stamped own ops)
    (hmem : ∀ op, op ∈ ops' ↔ op ∈ ops) :
    (reconstructRemoteState ops' own).hlc = (reconstructRemoteState ops own).hlc ∧
      ((∃ op ∈ ops, foreign own op = true) →
        LatestForeign own ops (reconstructRemoteState ops' own).hlc) ∧
      ∀ fileId e, (reconstructRemoteState ops' own).fileEntries.get fileId = some e ↔
        ∃ op ∈ ops, foreign own op = true ∧ op.fileId = fileId ∧ e = projectedEntry op ∧
          ∀ op' ∈ ops, foreign own op' = true → op'.fileId = fileId →
            0 ≤ hlcCompare op.hlcTimestamp op'.hlcTimestamp := by
  have hhlc : (reconstructRemoteState ops' own).hlc = (reconstructRemoteState ops own).hlc := by
    have hmax : ∀ m m', latest (ops'.filter (foreign own)) = some m →
        latest (ops.filter (foreign own)) = some m' → m.hlcTimestamp = m'.hlcTimestamp := by
      intro m m' hm hm'
      have hsub : ∀ o, o ∈ ops'.filter (foreign own) ↔ o ∈ ops.filter (foreign own) := by
        simp [hmem]
      have h₁ := (List.argmax_eq_some_iff.1 hm).2.1 m' ((hsub _).2 (List.argmax_mem hm'))
      have h₂ := (List.argmax_eq_some_iff.1 hm').2.1 m ((hsub _).1 (List.argmax_mem hm))
      exact rank_inj (le_antisymm h₂ h₁)
    have hnone : latest (ops'.filter (foreign own)) = none ↔
        latest (ops.filter (foreign own)) = none := by
      simp [latest, hmem]
    change Option.getD _ _ = Option.getD _ _
    rw [projected_maxHlc, projected_maxHlc]
    cases hm : latest (ops'.filter (foreign own)) with
    | none => rw [hnone.1 hm]
    | some m =>
        cases hm' : latest (ops.filter (foreign own)) with
        | none => cases (hnone.2 hm').symm.trans hm
        | some m' => rw [Option.map_some, Option.map_some, hmax m m' hm hm']
  refine ⟨hhlc, fun hsome => ?_, ?_⟩
  · rw [hhlc]
    exact latestForeign_hlc hsome
  · intro fileId e
    have hfile : ∀ o, o ∈ ofFile own fileId ops' ↔
        o ∈ ops ∧ foreign own o = true ∧ o.fileId = fileId := by
      intro o
      rw [mem_ofFile, hmem]
    have hdistinct : ∀ o ∈ ofFile own fileId ops', ∀ o' ∈ ofFile own fileId ops',
        o.hlcTimestamp = o'.hlcTimestamp → o = o' := by
      intro o ho o' ho' heq
      obtain ⟨hop, hfor, hid⟩ := (hfile o).1 ho
      obtain ⟨hop', hfor', hid'⟩ := (hfile o').1 ho'
      exact hs o hop o' hop' hfor hfor' (hid.trans hid'.symm) heq
    change (ops'.foldl (projectOp own) ⟨.empty, none⟩).fileEntries.get fileId = some e ↔ _
    rw [projected_latest, Option.map_eq_some_iff]
    constructor
    · rintro ⟨o, ho, rfl⟩
      obtain ⟨hmemo, hmax⟩ := (latest_iff hdistinct).1 ho
      obtain ⟨hop, hfor, hid⟩ := (hfile o).1 hmemo
      exact ⟨o, hop, hfor, hid, rfl, fun o' ho' hfor' hid' => hmax o' ((hfile o').2 ⟨ho', hfor', hid'⟩)⟩
    · rintro ⟨o, hop, hfor, hid, rfl, hmax⟩
      refine ⟨o, (latest_iff hdistinct).2 ⟨(hfile o).2 ⟨hop, hfor, hid⟩, fun o' ho' => ?_⟩, rfl⟩
      obtain ⟨hop', hfor', hid'⟩ := (hfile o').1 ho'
      exact hmax o' hop' hfor' hid'

/-- Two peers wrote one file, and so did we. -/
def threeOps : List Operation :=
  [opAt "1" "b" 5 "n.md", opAt "2" "c" 7 "m.md", opAt "3" "a" 9 "o.md"]

theorem reconstructRemoteState_orderFree_threeOps :
    (reconstructRemoteState (threeOps.reverse ++ threeOps) (some "a")).hlc =
        (reconstructRemoteState threeOps (some "a")).hlc ∧
      ((∃ op ∈ threeOps, foreign (some "a") op = true) →
        LatestForeign (some "a") threeOps
          (reconstructRemoteState (threeOps.reverse ++ threeOps) (some "a")).hlc) ∧
      ∀ fileId e, (reconstructRemoteState (threeOps.reverse ++ threeOps) (some "a")).fileEntries.get
          fileId = some e ↔
        ∃ op ∈ threeOps, foreign (some "a") op = true ∧ op.fileId = fileId ∧ e = projectedEntry op ∧
          ∀ op' ∈ threeOps, foreign (some "a") op' = true → op'.fileId = fileId →
            0 ≤ hlcCompare op.hlcTimestamp op'.hlcTimestamp :=
  reconstructRemoteState_orderFree (by
    rw [Stamped]
    decide) fun op => by rw [List.mem_append, List.mem_reverse, or_self]

end Latest

section Cursor

/-- An op whose content could not be obtained this round. -/
def blocked (missingContent : List String) (p : PulledOp) : Bool :=
  p.op.type ≠ .delete && p.op.contentHash ∈ missingContent

/-- `none` is `Infinity`. -/
def minBlocked (pulled : List PulledOp) (missingContent : List String) : Option Nat :=
  pulled.foldl (fun m p =>
    if blocked missingContent p && m.all (p.seq < ·) then some p.seq else m) none

def safeCursor (pulled : List PulledOp) (pulledCursor : Nat) (missingContent : List String)
    (startCursor : Nat) (driftDeferred : Bool) : Nat :=
  if driftDeferred then startCursor
  else if missingContent.isEmpty then pulledCursor
  else
    match minBlocked pulled missingContent with
    | none => pulledCursor
    | some m => min pulledCursor (m - 1)

variable {pulled : List PulledOp} {missing : List String} {c start pulledCursor : Nat}

theorem minBlocked_spec (pulled : List PulledOp) (missing : List String) (c : Nat) :
    (∀ m ∈ minBlocked pulled missing, c < m) ↔
      ∀ p ∈ pulled, blocked missing p = true → c < p.seq := by
  induction pulled using List.reverseRecOn with
  | nil => simp [minBlocked]
  | append_singleton pulled p ih =>
      rw [minBlocked, List.foldl_concat, ← minBlocked, List.forall_mem_append, ← ih,
        List.forall_mem_singleton]
      cases hb : blocked missing p with
      | false => simp
      | true =>
          cases hm : minBlocked pulled missing with
          | none => simp
          | some m =>
              by_cases hlt : p.seq < m
              · simp only [Bool.true_and, Option.all_some, decide_eq_true hlt, if_true,
                  Option.mem_some_iff, forall_eq', forall_const]
                exact ⟨fun h => ⟨h.trans hlt, h⟩, fun h => h.2⟩
              · simp only [Bool.true_and, Option.all_some, decide_eq_false hlt, if_false,
                  Option.mem_some_iff, forall_eq', forall_const, Bool.false_eq_true]
                exact ⟨fun h => ⟨h, h.trans_le (Nat.not_lt.1 hlt)⟩, fun h => h.1⟩

/-- Unless something was deferred, the cursor goes as far as no blocked op lies behind it. -/
theorem le_safeCursor_iff (hseq : ∀ p ∈ pulled, 0 < p.seq) :
    c ≤ safeCursor pulled pulledCursor missing start false ↔
      c ≤ pulledCursor ∧ ∀ p ∈ pulled, blocked missing p = true → c < p.seq := by
  rw [safeCursor, if_neg Bool.false_ne_true]
  split
  · rename_i hempty
    rw [List.isEmpty_iff] at hempty
    simp [hempty, blocked]
  · rw [← minBlocked_spec]
    have hpos := (minBlocked_spec pulled missing 0).2 fun p hp _ => hseq p hp
    cases hm : minBlocked pulled missing with
    | none => simp
    | some m =>
        have hm0 := hpos m hm
        simp only [le_min_iff, Option.mem_some_iff, forall_eq']
        omega

theorem safeCursor_le (hseq : ∀ p ∈ pulled, 0 < p.seq) (hstart : start ≤ pulledCursor)
    (deferred : Bool) : safeCursor pulled pulledCursor missing start deferred ≤ pulledCursor := by
  cases deferred with
  | true => exact hstart
  | false => exact ((le_safeCursor_iff hseq).1 (Nat.le_refl _)).1

end Cursor

section Rounds

open Ledger Encryption SyncServer

/-- What a completed round goes by when it saves its cursor. -/
structure RoundEnd where
  pulled : List PulledOp
  pulledCursor : Nat
  missingContent : List String
  driftDeferred : Bool

def RoundEnd.saved (r : RoundEnd) (startCursor : Nat) : Nat :=
  safeCursor r.pulled r.pulledCursor r.missingContent startCursor r.driftDeferred

/-- Completed rounds of one device, from one saved cursor to another. A round may start from an
earlier cursor than the saved one, as it does when the version graph has to be rebuilt; rounds that
fail save none. -/
inductive Rounds (W : WebCrypto) (C : VaultCrypto) :
    Nat → List AppendOp → List RoundEnd → Nat → List AppendOp → Prop
  | nil {c l} : Rounds W C c l [] c l
  | cons {c l start l' r rest c' l''} (hstart : start ≤ c) (hl : l <+: l')
      (hpull : Reached W C start r.pulledCursor r.pulled l')
      (hrest : Rounds W C (r.saved start) l' rest c' l'') : Rounds W C c l (r :: rest) c' l''

variable {W : WebCrypto} {C : VaultCrypto} {c c' start cursor : Nat} {l l' : List AppendOp}
  {rs : List RoundEnd} {r : RoundEnd} {pulled : List PulledOp}

theorem seq_of_getElem? {i : Nat} {rec : OpRecord} (h : (records l)[i]? = some rec) :
    rec.seq = i + 1 := by
  rw [getElem?_records, Option.map_eq_some_iff] at h
  obtain ⟨op, -, rfl⟩ := h
  rfl

/-- The op pulled for a place between the cursors. -/
theorem pulled_at (h : Reached W C start cursor pulled l) {i : Nat} (hi : start ≤ i)
    (hi' : i < cursor) : ∃ p ∈ pulled, ∃ rec, (records l)[i]? = some rec ∧ Opens W C p rec := by
  rw [h.cursor] at hi'
  have hlen := h.ops.length_eq
  have hlt : i - start < pulled.length := by omega
  have hrec := getElem?_page (records l) start hlt
  rw [List.getElem?_eq_getElem (hlen ▸ hlt), Nat.add_sub_cancel' hi] at hrec
  exact ⟨_, List.getElem_mem hlt, _, hrec.symm, h.ops.get hlt (hlen ▸ hlt)⟩

theorem place_of_pulled (h : Reached W C start cursor pulled l) {p : PulledOp} (hp : p ∈ pulled) :
    ∃ (i : Nat) (rec : OpRecord), (records l)[i]? = some rec ∧ Opens W C p rec := by
  obtain ⟨j, hj, rfl⟩ := List.getElem_of_mem hp
  have hlen := h.ops.length_eq
  have hrec := getElem?_page (records l) start hj
  rw [List.getElem?_eq_getElem (hlen ▸ hj)] at hrec
  exact ⟨_, _, hrec.symm, h.ops.get hj (hlen ▸ hj)⟩

theorem seq_pos (h : Reached W C start cursor pulled l) : ∀ p ∈ pulled, 0 < p.seq := by
  intro p hp
  obtain ⟨i, rec, hrec, hopens⟩ := place_of_pulled h hp
  rw [hopens.1, seq_of_getElem? hrec]
  exact Nat.succ_pos i

/-- The round pulled the op at this place, with its content, and deferred nothing. -/
def Consumed (W : WebCrypto) (C : VaultCrypto) (r : RoundEnd) (rec : OpRecord) : Prop :=
  r.driftDeferred = false ∧ ∃ p ∈ r.pulled, Opens W C p rec ∧ blocked r.missingContent p = false

/-- A round's cursor passes only what the round consumed. -/
theorem consumed_of_saved (h : Reached W C start r.pulledCursor r.pulled l) {i : Nat}
    (hi : start ≤ i) (hi' : i < r.saved start) :
    ∃ rec, (records l)[i]? = some rec ∧ Consumed W C r rec := by
  have hseq := seq_pos h
  cases hdeferred : r.driftDeferred with
  | true =>
      rw [RoundEnd.saved, hdeferred, safeCursor, if_pos rfl] at hi'
      exact absurd hi' (Nat.not_lt_of_le hi)
  | false =>
      rw [RoundEnd.saved, hdeferred] at hi'
      obtain ⟨hle, hblocked⟩ := (le_safeCursor_iff hseq).1 (Nat.succ_le_of_lt hi')
      obtain ⟨p, hp, rec, hrec, hopens⟩ := pulled_at h hi hle
      refine ⟨rec, hrec, hdeferred, p, hp, hopens, ?_⟩
      by_contra hb
      have hlt := hblocked p hp (by simpa using hb)
      rw [hopens.1, seq_of_getElem? hrec] at hlt
      exact Nat.lt_irrefl _ hlt

theorem Rounds.grows (h : Rounds W C c l rs c' l') : l <+: l' := by
  induction h with
  | nil => exact List.prefix_rfl
  | cons _ hl _ _ ih => exact hl.trans ih

theorem getElem?_mono {α : Type} {as bs : List α} (h : as <+: bs) {i : Nat} {a : α}
    (ha : as[i]? = some a) : bs[i]? = some a := by
  obtain ⟨more, rfl⟩ := h
  rw [List.getElem?_append_left (List.getElem?_eq_some_iff.1 ha).1, ha]

/-- Over any rounds, whatever was pulled, missing, deferred or rewound in each, an op that the
saved cursor has passed was consumed by one of them: none is stranded behind the cursor. -/
theorem no_op_stranded (h : Rounds W C c l rs c' l') (i : Nat) (hi : c ≤ i) (hi' : i < c') :
    ∃ rec, (records l')[i]? = some rec ∧ ∃ r ∈ rs, Consumed W C r rec := by
  induction h with
  | nil => exact absurd hi' (Nat.not_lt_of_le hi)
  | @cons c l start l' r rest c' l'' hstart hl hpull hrest ih =>
      by_cases hsaved : i < r.saved start
      · obtain ⟨rec, hrec, hconsumed⟩ := consumed_of_saved hpull (hstart.trans hi) hsaved
        exact ⟨rec, getElem?_mono (records_mono hrest.grows) hrec, r, List.mem_cons_self,
          hconsumed⟩
      · obtain ⟨rec, hrec, r', hr', hconsumed⟩ := ih (Nat.not_lt.1 hsaved) hi'
        exact ⟨rec, hrec, r', List.mem_cons_of_mem r hr', hconsumed⟩

/-- A peer's edit, whose content is not there in the first round. -/
def sealedEdit : AppendOp :=
  ⟨"1", plainVault.encryptOp plainCrypto (List.replicate GCM_NONCE_BYTES 0) (opAt "1" "b" 5 "n.md"),
    []⟩

def pulledEdit : PulledOp := ⟨1, opAt "1" "b" 5 "n.md"⟩

def heldThenRead : List RoundEnd :=
  [⟨[pulledEdit], 1, [sha256Hex plainCrypto [65]], false⟩, ⟨[pulledEdit], 1, [], false⟩]

theorem rounds_heldThenRead :
    Rounds plainCrypto plainVault 0 [] heldThenRead 1 [sealedEdit] := by
  have hopens : Opens plainCrypto plainVault pulledEdit (recordAt 0 sealedEdit) :=
    ⟨rfl, decryptOp_encryptOp lawful_plainCrypto List.length_replicate⟩
  have hreached : Reached plainCrypto plainVault 0 1 [pulledEdit] [sealedEdit] :=
    ⟨rfl, .cons hopens .nil⟩
  exact .cons (Nat.le_refl 0) ⟨[sealedEdit], rfl⟩ hreached
    (.cons (Nat.le_refl 0) List.prefix_rfl hreached .nil)

theorem no_op_stranded_heldThenRead :
    ∃ rec, (records [sealedEdit])[0]? = some rec ∧
      ∃ r ∈ heldThenRead, Consumed plainCrypto plainVault r rec :=
  no_op_stranded rounds_heldThenRead 0 (Nat.le_refl 0) Nat.one_pos

end Rounds

end OpsBlobs.RemoteProjection
