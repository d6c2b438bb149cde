import OpsBlobs.ServerApi

namespace OpsBlobs.ServerPull

open Types Coroutine WriteEffects Promises Ledger Encryption SyncServer ServerApi

/-- A pulled, decrypted op with its server `seq`. -/
structure PulledOp where
  seq : Nat
  op : Operation
  deriving DecidableEq, Repr

section Pull

variable (W : WebCrypto) (C : VaultCrypto) (opsLimit : Nat)

/-- A record that our key cannot read is the fault of the passphrase, as a rule. -/
def decryptRecord (ops : List PulledOp) (rec : OpRecord) : Round (List PulledOp) := do
  let op ← (decryptOp W C rec.ciphertext).tryCatch fun _ => throw .decrypt
  pure (ops ++ [⟨rec.seq, op⟩])

/-- A run is followed for so many pages. -/
def pullFrom : Nat → List PulledOp → Nat → Round (List PulledOp × Nat)
  | 0, ops, cursor => do
      awaitUntil fun _ => false
      pure (ops, cursor)
  | pages + 1, ops, cursor => do
      throwIfCancelled
      let page ← pullOps cursor opsLimit
      let ops ← foldM (decryptRecord W C) ops page.ops
      if !page.hasMore || page.ops.isEmpty then pure (ops, page.nextCursor)
      else pullFrom pages ops page.nextCursor

def pullAll (pages startCursor : Nat) : Round (List PulledOp × Nat) :=
  pullFrom W C opsLimit pages [] startCursor

end Pull

section Exact

variable {W : WebCrypto} {C : VaultCrypto} {H : Request → Prop} {opsLimit : Nat}
  {l l' : List AppendOp} {s s' : Net} {start cursor : Nat} {ops : List PulledOp}

/-- The server holds at least this ledger. -/
def Holds (l : List AppendOp) (s : Net) : Prop := ∃ l', l <+: l' ∧ Represents s.server l'

theorem Holds.traffic (h : Holds l s) (ht : Traffic H s s') : Holds l s' := by
  obtain ⟨l', hl, hrep⟩ := h
  obtain ⟨requests, -, hs⟩ := ht
  obtain ⟨done, -, -, hrep'⟩ := serve_refines requests hrep
  exact ⟨_, hl.trans prefix_enterAll, hs ▸ hrep'⟩

theorem Holds.weaken (h : Holds l' s) (hl : l <+: l') : Holds l s := by
  obtain ⟨l'', hl', hrep⟩ := h
  exact ⟨l'', hl.trans hl', hrep⟩

/-- What is pulled of a record. -/
def Opens (W : WebCrypto) (C : VaultCrypto) (p : PulledOp) (rec : OpRecord) : Prop :=
  p.seq = rec.seq ∧ C.decryptOp W rec.ciphertext = some p.op

/-- A record on the server that does not open under the device's key. -/
def Unreadable (W : WebCrypto) (C : VaultCrypto) (s : Net) : Prop :=
  ∃ l, Holds l s ∧ ∃ rec ∈ records l, C.decryptOp W rec.ciphertext = none

theorem Unreadable.traffic (h : Unreadable W C s) (ht : Traffic H s s') : Unreadable W C s' := by
  obtain ⟨l, hl, hrec⟩ := h
  exact ⟨l, hl.traffic ht, hrec⟩

/-- How a pull may fail: by the user, by the link, or for a record that does not open. -/
inductive PullFails (W : WebCrypto) (C : VaultCrypto) : SyncError → Net → Prop
  | cancelled (s : Net) : PullFails W C .cancelled s
  | request (operation : String) (fault : Fault) (s : Net) :
      PullFails W C (requestError operation fault) s
  | decrypt {s : Net} (h : Unreadable W C s) : PullFails W C .decrypt s

theorem pullOps_spec (since limit : Nat) (h : Holds l s) :
    wp (Traffic H) (Sending (· = .read)) (pullOps since limit) (ends (fun r s' =>
      ∃ l', l <+: l' ∧ Holds l' s' ∧
        r = ⟨page (records l') since limit, since + (page (records l') since limit).length,
          decide (since + limit < l'.length)⟩) (PullFails W C)) s := by
  refine wp_call (sending_deliver rfl) (fun s₁ _ fault _ => .request _ fault s₁)
    fun s₁ s₂ hs₁ hs₂ => ?_
  obtain ⟨l', hl, hrep⟩ := h.traffic hs₁
  have hheld : Holds l' (s₁.deliver .read) := ⟨l', List.prefix_rfl, represents_claim hrep⟩
  exact ⟨⟨l', hl, hheld.traffic hs₂, pullOps_represents hrep since limit⟩,
    fun fault _ => .request _ fault s₂⟩

/-- The records of a page are decrypted one after the other. -/
theorem decryptPage_spec (hl : Holds l s) {recs : List OpRecord} (hrecs : ∀ rec ∈ recs, rec ∈ records l) :
    wp (Traffic H) (Sending (· = .read)) (foldM (decryptRecord W C) ops recs)
      (ends (fun r s' => Holds l s' ∧ ∃ new, r = ops ++ new ∧ List.Forall₂ (Opens W C) new recs)
        (PullFails W C)) s := by
  induction recs generalizing ops s with
  | nil => exact ⟨hl, [], (List.append_nil ops).symm, .nil⟩
  | cons rec rest ih =>
      refine wp_bind'.2 (wp_bind.2 (wp_tryCatch.2 (wp_pause.2 fun s' hs => ?_)))
      have hheld := hl.traffic hs
      cases hop : C.decryptOp W rec.ciphertext with
      | none => exact .decrypt ⟨l, hheld, rec, hrecs rec List.mem_cons_self, hop⟩
      | some op =>
          change wp _ _ (foldM (decryptRecord W C) (ops ++ [⟨rec.seq, op⟩]) rest) _ s'
          refine wp_mono ?_ (ih hheld fun r hr => hrecs r (List.mem_cons_of_mem _ hr))
          rintro (e | r) s'' hr
          · exact hr
          · obtain ⟨hheld', new, rfl, hnew⟩ := hr
            exact ⟨hheld', ⟨rec.seq, op⟩ :: new, List.append_assoc ops _ new,
              .cons ⟨rfl, hop⟩ hnew⟩

/-- Where a pull stands between two pages: it has what lies between the cursors, in order. -/
structure Reached (W : WebCrypto) (C : VaultCrypto) (start cursor : Nat) (ops : List PulledOp)
    (l : List AppendOp) : Prop where
  cursor : cursor = start + ops.length
  ops : List.Forall₂ (Opens W C) ops (page (records l) start ops.length)

theorem Reached.mono (h : Reached W C start cursor ops l) (hl : l <+: l') :
    Reached W C start cursor ops l' := by
  refine ⟨h.cursor, ?_⟩
  rw [page_eq_of_full (records_mono hl) h.ops.length_eq.symm]
  exact h.ops

theorem Reached.page (h : Reached W C start cursor ops l) {new : List PulledOp} {n : Nat}
    (hnew : List.Forall₂ (Opens W C) new (page (records l) cursor n)) :
    Reached W C start (cursor + (Ledger.page (records l) cursor n).length) (ops ++ new) l := by
  have hlen := hnew.length_eq
  constructor
  · rw [h.cursor, List.length_append, hlen, Nat.add_assoc, ← h.cursor]
  · rw [List.length_append, ← page_append, hlen, ← h.cursor, page_length_page]
    exact List.rel_append h.ops hnew

/-- The last page reaches the end of the ledger. -/
theorem length_le_of_last (hlimit : 0 < opsLimit)
    (h : ¬cursor + opsLimit < l.length ∨ page (records l) cursor opsLimit = []) :
    l.length ≤ cursor + (page (records l) cursor opsLimit).length := by
  have hlen := length_page (records l) cursor opsLimit
  rw [length_records] at hlen
  rcases h with h | h
  · omega
  · rw [h, List.length_nil] at hlen
    omega

/-- A pull returns what the server has from the cursor on, each record once and in order, up to a
cursor that no op already there at the start lies behind. -/
theorem pullFrom_spec {pages : Nat} (hlimit : 0 < opsLimit) (hl : Holds l s)
    (hr : Reached W C start cursor ops l) :
    wp (Traffic H) (Sending (· = .read)) (pullFrom W C opsLimit pages ops cursor)
      (ends (fun r s' => ∃ l', l <+: l' ∧ Holds l' s' ∧ l.length ≤ r.2 ∧
        Reached W C start r.2 r.1 l') (PullFails W C)) s := by
  induction pages generalizing l ops cursor s with
  | zero => exact fun s' _ h => by cases h
  | succ pages ih =>
      rw [pullFrom]
      refine wp_throwIfCancelled (.cancelled s)
        (wp_bind.2 (wp_mono ?_ (pullOps_spec (W := W) (C := C) cursor opsLimit hl)))
      rintro (e | r) s₁ hpage
      · exact hpage
      obtain ⟨l₁, hl₁, hheld₁, rfl⟩ := hpage
      refine wp_bind.2 (wp_mono ?_ (decryptPage_spec hheld₁ fun rec hrec => ?_))
      · rintro (e | ops') s₂ hdec
        · exact hdec
        obtain ⟨hheld₂, new, rfl, hnew⟩ := hdec
        have hreached := (hr.mono hl₁).page hnew
        change wp _ _ (if _ then _ else _ : Round _) _ s₂
        split
        · rename_i hlast
          refine ⟨l₁, hl₁, hheld₂, hl₁.length_le.trans (length_le_of_last hlimit ?_), hreached⟩
          simpa using hlast
        · refine wp_mono ?_ (ih hheld₂ hreached)
          rintro (e | r) s₃ hend
          · exact hend
          obtain ⟨l₂, hl₂, hheld₃, hle, hr₂⟩ := hend
          exact ⟨l₂, hl₁.trans hl₂, hheld₃, hl₁.length_le.trans hle, hr₂⟩
      · exact List.mem_of_mem_drop (List.mem_of_mem_take hrec)

theorem pullAll_spec (pages start : Nat) (hlimit : 0 < opsLimit) (hl : Holds l s) :
    wp (Traffic H) (Sending (· = .read)) (pullAll W C opsLimit pages start)
      (ends (fun r s' => ∃ l', l <+: l' ∧ Holds l' s' ∧ l.length ≤ r.2 ∧
        Reached W C start r.2 r.1 l') (PullFails W C)) s :=
  pullFrom_spec hlimit hl ⟨rfl, by
    rw [List.length_nil, page, List.take_zero]
    exact .nil⟩

/-- Whatever the other devices send meanwhile, a pull returns exactly the records from its start
cursor up to the cursor it returns, each once, in the server's order and decrypted; and what stood
in the log when it began lies before that cursor. It sends nothing but reads, and fails only by the
user, by the link, or for a record there that the key does not open. -/
theorem pullAll_exact (pages start : Nat) (hlimit : 0 < opsLimit) (hrep : Represents s.server l) :
    wp (Traffic H) (Sending (· = .read)) (pullAll W C opsLimit pages start)
      (ends (fun r s' => ∃ l', l <+: l' ∧ Holds l' s' ∧ l.length ≤ r.2 ∧
        Reached W C start r.2 r.1 l') (PullFails W C)) s :=
  pullAll_spec pages start hlimit ⟨l, List.prefix_rfl, hrep⟩

theorem pullAll_exact_twoOps :
    wp (Traffic fun _ => True) (Sending (· = .read)) (pullAll plainCrypto plainVault 1 3 1)
      (ends (fun r s' => ∃ l', twoOps <+: l' ∧ Holds l' s' ∧ twoOps.length ≤ r.2 ∧
        Reached plainCrypto plainVault 1 r.2 r.1 l') (PullFails plainCrypto plainVault))
      (.quiet twoOpsServer) :=
  pullAll_exact 3 1 Nat.one_pos represents_twoOps

end Exact

section Termination

variable {W : WebCrypto} {C : VaultCrypto} {H : Request → Prop} {opsLimit N : Nat}
  {l : List AppendOp} {s : Net}

/-- The others append as long as the log has at most `N` records. -/
def Bounded (H : Request → Prop) (N : Nat) (s s' : Net) : Prop :=
  Traffic H s s' ∧ s'.server.log.length ≤ N

theorem Holds.length_le (h : Holds l s) (hN : s.server.log.length ≤ N) : l.length ≤ N := by
  obtain ⟨l', hl, hrep⟩ := h
  rw [hrep.log, length_records] at hN
  exact Nat.le_trans hl.length_le hN

theorem yields_decryptPage (ops : List PulledOp) (recs : List OpRecord) :
    Yields (foldM (decryptRecord W C) ops recs) :=
  yields_foldM (fun _ _ => yields_bind (yields_tryCatch (yields_opened _) fun _ => yields_throw _)
    fun _ => yields_pure _) _ _

/-- What is known under any traffic is known under bounded traffic, with the bound. -/
theorem wp_bounded {α : Type} {t : Round α} {Q : Except SyncError α → Net → Prop}
    (hN : s.server.log.length ≤ N) (h : wp (Traffic H) (Sending (· = .read)) t Q s) :
    wp (Bounded H N) (Sending (· = .read)) t (fun r s => Q r s ∧ s.server.log.length ≤ N) s :=
  wp_invariant (fun _ _ hR _ => hR.2) (fun _ _ hG hI => by rwa [log_of_reads hG.traffic])
    (wp_weaken (fun _ _ hR => hR.1) (fun _ _ hG => hG) h) hN

theorem pullFrom_prompt {pages cursor : Nat} {ops : List PulledOp} (hlimit : 0 < opsLimit)
    (hl : Holds l s) (hN : s.server.log.length ≤ N) (hpages : 0 < pages) (hleft : N < cursor + pages) :
    Prompt (Bounded H N) (pullFrom W C opsLimit pages ops cursor) s := by
  induction pages generalizing l s cursor ops with
  | zero => cases hpages
  | succ pages ih =>
      rw [pullFrom]
      refine prompt_throwIfCancelled (prompt_bind (prompt_of_yields (yields_call _ _ _) s)
        (wp_mono ?_ (wp_bounded hN
          (pullOps_spec (W := W) (C := C) cursor opsLimit hl))))
      rintro (e | r) s₁ ⟨hpage, hN₁⟩
      · trivial
      obtain ⟨l₁, hl₁, hheld₁, rfl⟩ := hpage
      have hlen₁ := hheld₁.length_le hN₁
      refine prompt_bind (prompt_of_yields (yields_decryptPage _ _) s₁)
        (wp_mono ?_ (wp_bounded hN₁ (decryptPage_spec (W := W) (C := C) hheld₁ fun rec hrec =>
          List.mem_of_mem_drop (List.mem_of_mem_take hrec))))
      rintro (e | ops') s₂ ⟨hdec, hN₂⟩
      · trivial
      change Prompt _ (if _ then _ else _ : Round _) s₂
      split
      · trivial
      · rename_i hmore
        have hhas : cursor + opsLimit < l₁.length := by
          by_contra hnot
          simp [hnot] at hmore
        have hfull : (page (records l₁) cursor opsLimit).length = opsLimit := by
          rw [length_page, length_records]
          omega
        refine ih hdec.1 hN₂ (by omega) ?_
        simp only
        omega

/-- A pull ends, whatever the others append, as long as the log stays within some bound: it takes
no more pages than the bound has records, and one. -/
theorem pullAll_ends {start : Nat} (hlimit : 0 < opsLimit) (hrep : Represents s.server l)
    (hN : s.server.log.length ≤ N) :
    Prompt (Bounded H N) (pullAll W C opsLimit (N + 1) start) s :=
  pullFrom_prompt hlimit ⟨l, List.prefix_rfl, hrep⟩ hN (Nat.succ_pos N) (by omega)

theorem pullAll_ends_twoOps :
    Prompt (Bounded (fun _ => True) 2) (pullAll plainCrypto plainVault 1 3 1)
      (.quiet twoOpsServer) :=
  pullAll_ends Nat.one_pos represents_twoOps (Nat.le_refl 2)

/-- An edit of the file `f`, to a text of one letter. -/
def opAt (id device : String) (wallTime : Nat) (path : Path) : Operation :=
  ⟨1, id, ⟨wallTime, 0, device⟩, "f", .update, path, sha256Hex plainCrypto [65], []⟩

end Termination

end OpsBlobs.ServerPull
