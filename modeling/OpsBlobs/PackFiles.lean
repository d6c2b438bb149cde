import OpsBlobs.PackIndexFile
import OpsBlobs.PackRefinement

namespace OpsBlobs.PackFiles

open Types LineJournal PackedContent ContentIntegrity PackRefinement PackIndexFile

/-- A call of the store on its files. -/
inductive Write
  | appendPack (packId : Nat) (body : List Char)
  | appendIndex (delta : List (String × PackLoc))
  | removePack (packId : Nat)
  | writeIndex (entries : List (String × PackLoc))
  deriving DecidableEq

structure Disk where
  packs : JsMap Nat (List Char)
  indexText : List Char

def Disk.write (d : Disk) : Write → Disk
  | .appendPack packId body =>
      { d with packs := d.packs.set packId ((d.packs.get packId).getD [] ++ body) }
  | .appendIndex delta => { d with indexText := d.indexText ++ indexLines delta }
  | .removePack packId => { d with packs := d.packs.delete packId }
  | .writeIndex entries => { d with indexText := indexLines entries }

/-- What a crash leaves of a write: the first characters of an append; the others are atomic. -/
def Disk.cut (d : Disk) (torn : Nat) : Write → Disk
  | .appendPack packId body => d.write (.appendPack packId (body.take torn))
  | .appendIndex delta => { d with indexText := d.indexText ++ (indexLines delta).take torn }
  | .removePack packId => d.write (.removePack packId)
  | .writeIndex entries => d.write (.writeIndex entries)

/-- The files as a start reads them: the packs, and the entries of the index. -/
structure Files where
  packs : JsMap Nat (List Char)
  entries : List (String × PackLoc)

def Files.load (f : Files) : ContentStore :=
  ContentStore.init { ContentStore.empty with packs := f.packs, indexFile := f.entries }

def Files.write (f : Files) : Write → Files
  | .appendPack packId body =>
      { f with packs := f.packs.set packId ((f.packs.get packId).getD [] ++ body) }
  | .appendIndex delta => { f with entries := f.entries ++ delta }
  | .removePack packId => { f with packs := f.packs.delete packId }
  | .writeIndex entries => { f with entries := entries }

def Disk.files (d : Disk) : Files := ⟨d.packs, parseIndex d.indexText⟩

def Disk.load (d : Disk) : ContentStore := d.files.load

/-- The files that a store believes in. -/
def files (s : ContentStore) : Files := ⟨s.packs, s.indexFile⟩

def writes (f : Files) (ws : List Write) : Files := ws.foldl Files.write f

section Legit

variable (P : Platform) (data : List Bytes) (K : String → Prop)

/-- A start from these files would find the blob. -/
def Reads (f : Files) (hash : String) (bytes : Bytes) : Prop := Stores P f.load hash bytes

/-- No read throws, and none but contents in play are read. -/
structure Readable (f : Files) : Prop where
  decodes : Decodes P f.load
  known : ∀ hash bytes, Reads P f hash bytes → bytes ∈ data
  plain : ∀ e ∈ f.entries, Plain e.1

/-- A write that costs none of the blobs to keep: a pack is new, each place that is added holds
its blob, and what is taken away is no place of a blob to keep. -/
def Fine (f : Files) : Write → Prop
  | .appendPack packId _ => ∀ hash loc, f.load.index.get hash = some loc → loc.packId ≠ packId
  | .appendIndex delta => ∀ e ∈ delta, ∃ pack bytes, f.packs.get e.2.packId = some pack ∧
      ContentStore.extract P pack e.1 e.2 = some (some bytes) ∧ bytes ∈ data
  | .removePack packId => ∀ hash bytes loc, K hash → Reads P f hash bytes →
      f.load.index.get hash = some loc → loc.packId ≠ packId
  | .writeIndex entries => (∀ e ∈ entries, f.load.index.get e.1 = some e.2) ∧
      ∀ hash bytes, K hash → Reads P f hash bytes →
        (JsMap.ofList entries).get hash = f.load.index.get hash

def Legit : Files → List Write → Prop
  | _, [] => True
  | f, w :: ws => Fine P data K f w ∧ Legit (f.write w) ws

end Legit

variable {P : Platform} {data : List Bytes} {K : String → Prop} {f : Files} {w : Write}
  {ws more : List Write} {hash : String} {bytes : Bytes}

theorem legit_append : Legit P data K f (ws ++ more) ↔
    Legit P data K f ws ∧ Legit P data K (writes f ws) more := by
  induction ws generalizing f with
  | nil => exact (and_iff_right trivial).symm
  | cons w ws ih =>
      rw [List.cons_append, Legit, ih, Legit, and_assoc]
      rfl

theorem writes_append : writes f (ws ++ more) = writes (writes f ws) more := List.foldl_append ..

section Write

theorem reads_iff : Reads P f hash bytes ↔ ∃ loc pack, f.load.index.get hash = some loc ∧
    f.packs.get loc.packId = some pack ∧
      ContentStore.extract P pack hash loc = some (some bytes) := Iff.rfl

theorem hash_of_reads (h : Reads P f hash bytes) : P.sha256Hex bytes = hash := by
  obtain ⟨loc, pack, -, -, hx⟩ := h
  exact (hash_of_extract hx).1

theorem mem_entries_of_get {loc : PackLoc} (h : f.load.index.get hash = some loc) :
    (hash, loc) ∈ f.entries := JsMap.mem_of_get_ofList h

theorem get_index_append (f : Files) (delta : List (String × PackLoc)) (hash : String) :
    (f.write (.appendIndex delta)).load.index.get hash =
      ((JsMap.ofList delta).get hash).or (f.load.index.get hash) := by
  have hsplit : (f.write (.appendIndex delta)).load.index = delta.foldl
      (fun m e => m.set e.1 e.2) (JsMap.ofList f.entries) := List.foldl_append ..
  rw [hsplit, JsMap.get_foldl_set]
  rfl

theorem packs_appendPack {packId packId' : Nat} {body : List Char} (h : packId' ≠ packId) :
    (f.write (.appendPack packId body)).packs.get packId' = f.packs.get packId' :=
  JsMap.get_set_ne _ _ h.symm

theorem readable_appendPack (hf : Readable P data f) {packId : Nat} {body : List Char}
    (hw : Fine P data K f (.appendPack packId body)) :
    Readable P data (f.write (.appendPack packId body)) ∧
      ∀ hash bytes, Reads P (f.write (.appendPack packId body)) hash bytes ↔
        Reads P f hash bytes := by
  have hreads : ∀ hash bytes, Reads P (f.write (.appendPack packId body)) hash bytes ↔
      Reads P f hash bytes := by
    intro hash bytes
    rw [reads_iff, reads_iff]
    apply exists_congr
    intro loc
    apply exists_congr
    intro pack
    apply and_congr_right
    intro hloc
    rw [packs_appendPack (hw hash loc hloc)]
  refine ⟨⟨?_, fun hash bytes h => hf.known hash bytes ((hreads hash bytes).1 h), hf.plain⟩,
    hreads⟩
  intro hash loc pack hloc hpack
  have hne : loc.packId ≠ packId := hw hash loc hloc
  have hsame : (f.write (.appendPack packId body)).packs.get loc.packId =
      f.packs.get loc.packId := packs_appendPack hne
  exact hf.decodes hash loc pack hloc (hsame.symm.trans hpack)

theorem readable_appendIndex (hd : Distinct P data)
    (hplain : ∀ content ∈ data, Plain (P.sha256Hex content)) (hf : Readable P data f)
    {delta : List (String × PackLoc)} (hw : Fine P data K f (.appendIndex delta)) :
    Readable P data (f.write (.appendIndex delta)) ∧
      ∀ hash bytes, Reads P f hash bytes → Reads P (f.write (.appendIndex delta)) hash bytes := by
  have hplace : ∀ hash loc, (JsMap.ofList delta).get hash = some loc →
      ∃ pack bytes, f.packs.get loc.packId = some pack ∧
        ContentStore.extract P pack hash loc = some (some bytes) ∧ bytes ∈ data :=
    fun hash loc h => hw _ (JsMap.mem_of_get_ofList h)
  refine ⟨⟨?_, ?_, ?_⟩, ?_⟩
  · intro hash loc pack hloc hpack
    rw [get_index_append] at hloc
    cases hnew : (JsMap.ofList delta).get hash with
    | none =>
        rw [hnew] at hloc
        exact hf.decodes hash loc pack hloc hpack
    | some loc' =>
        rw [hnew] at hloc
        obtain rfl := Option.some.inj hloc
        obtain ⟨pack', bytes, hpack', hx, -⟩ := hplace hash loc' hnew
        obtain rfl := Option.some.inj (hpack.symm.trans hpack')
        exact ⟨_, hx⟩
  · rintro hash bytes ⟨loc, pack, hloc, hpack, hx⟩
    rw [get_index_append] at hloc
    cases hnew : (JsMap.ofList delta).get hash with
    | none =>
        rw [hnew] at hloc
        exact hf.known hash bytes ⟨loc, pack, hloc, hpack, hx⟩
    | some loc' =>
        rw [hnew] at hloc
        obtain rfl := Option.some.inj hloc
        obtain ⟨pack', bytes', hpack', hx', hmem⟩ := hplace hash loc' hnew
        obtain rfl := Option.some.inj (hpack.symm.trans hpack')
        obtain rfl := Option.some.inj (Option.some.inj (hx.symm.trans hx'))
        exact hmem
  · intro e he
    rcases List.mem_append.1 he with he | he
    · exact hf.plain e he
    · obtain ⟨pack, b, -, hx, hmem⟩ := hw e he
      exact (hash_of_extract hx).1 ▸ hplain b hmem
  · intro hash bytes h
    rw [reads_iff]
    simp only [get_index_append]
    cases hnew : (JsMap.ofList delta).get hash with
    | none => exact h
    | some loc =>
        obtain ⟨pack, b, hpack, hx, hmem⟩ := hplace hash loc hnew
        have hsame : b = bytes := hd b hmem bytes (hf.known hash bytes h)
          ((hash_of_extract hx).1.trans (hash_of_reads h).symm)
        exact ⟨loc, pack, rfl, hpack, hsame ▸ hx⟩

theorem readable_removePack (hf : Readable P data f) {packId : Nat}
    (hw : Fine P data K f (.removePack packId)) :
    Readable P data (f.write (.removePack packId)) ∧
      ∀ hash bytes, K hash → Reads P f hash bytes →
        Reads P (f.write (.removePack packId)) hash bytes := by
  have hpacks : ∀ packId' pack, (f.write (.removePack packId)).packs.get packId' = some pack →
      f.packs.get packId' = some pack := by
    intro packId' pack h
    rw [Files.write, JsMap.get_delete] at h
    split at h
    · cases h
    · exact h
  refine ⟨⟨?_, ?_, hf.plain⟩, ?_⟩
  · exact fun hash loc pack hloc hpack => hf.decodes hash loc pack hloc (hpacks _ _ hpack)
  · rintro hash bytes ⟨loc, pack, hloc, hpack, hx⟩
    exact hf.known hash bytes ⟨loc, pack, hloc, hpacks _ _ hpack, hx⟩
  · intro hash bytes hk h
    obtain ⟨loc, pack, hloc, hpack, hx⟩ := id h
    refine ⟨loc, pack, hloc, ?_, hx⟩
    have hne : loc.packId ≠ packId := hw hash bytes loc hk h hloc
    exact (JsMap.get_delete_ne f.packs hne.symm).trans hpack

theorem readable_writeIndex (hf : Readable P data f) {entries : List (String × PackLoc)}
    (hw : Fine P data K f (.writeIndex entries)) :
    Readable P data (f.write (.writeIndex entries)) ∧
      ∀ hash bytes, K hash → Reads P f hash bytes →
        Reads P (f.write (.writeIndex entries)) hash bytes := by
  obtain ⟨hsub, hkept⟩ := hw
  have hindex : ∀ hash loc, (JsMap.ofList entries).get hash = some loc →
      f.load.index.get hash = some loc := fun hash loc h => hsub _ (JsMap.mem_of_get_ofList h)
  refine ⟨⟨?_, ?_, ?_⟩, ?_⟩
  · exact fun hash loc pack hloc hpack => hf.decodes hash loc pack (hindex hash loc hloc) hpack
  · rintro hash bytes ⟨loc, pack, hloc, hpack, hx⟩
    exact hf.known hash bytes ⟨loc, pack, hindex hash loc hloc, hpack, hx⟩
  · exact fun e he => hf.plain _ (mem_entries_of_get (hsub e he))
  · intro hash bytes hk h
    obtain ⟨loc, pack, hloc, hpack, hx⟩ := id h
    exact ⟨loc, pack, (hkept hash bytes hk h).trans hloc, hpack, hx⟩

/-- What a fine write keeps. -/
theorem readable_write (hd : Distinct P data)
    (hplain : ∀ content ∈ data, Plain (P.sha256Hex content)) (hf : Readable P data f)
    (hw : Fine P data K f w) :
    Readable P data (f.write w) ∧
      ∀ hash bytes, K hash → Reads P f hash bytes → Reads P (f.write w) hash bytes := by
  cases w with
  | appendPack packId body =>
      obtain ⟨h, hreads⟩ := readable_appendPack hf hw
      exact ⟨h, fun hash bytes _ => (hreads hash bytes).2⟩
  | appendIndex delta =>
      obtain ⟨h, hreads⟩ := readable_appendIndex hd hplain hf hw
      exact ⟨h, fun hash bytes _ => hreads hash bytes⟩
  | removePack packId => exact readable_removePack hf hw
  | writeIndex entries => exact readable_writeIndex hf hw

theorem readable_writes (hd : Distinct P data)
    (hplain : ∀ content ∈ data, Plain (P.sha256Hex content)) (hf : Readable P data f)
    (hws : Legit P data K f ws) :
    Readable P data (writes f ws) ∧
      ∀ hash bytes, K hash → Reads P f hash bytes → Reads P (writes f ws) hash bytes := by
  induction ws generalizing f with
  | nil => exact ⟨hf, fun _ _ _ h => h⟩
  | cons w ws ih =>
      obtain ⟨hw, hws⟩ := hws
      obtain ⟨hf₁, hreads₁⟩ := readable_write hd hplain hf hw
      obtain ⟨hf', hreads'⟩ := ih hf₁ hws
      exact ⟨hf', fun hash bytes hk h => hreads' hash bytes hk (hreads₁ hash bytes hk h)⟩

end Write

section Disk

variable {d : Disk}

theorem plain_of_fine (hplain : ∀ content ∈ data, Plain (P.sha256Hex content))
    {delta : List (String × PackLoc)} (hw : Fine P data K f (.appendIndex delta)) :
    ∀ e ∈ delta, Plain e.1 := by
  intro e he
  obtain ⟨pack, b, -, hx, hmem⟩ := hw e he
  exact (hash_of_extract hx).1 ▸ hplain b hmem

/-- What a fine write does to the text of the index, it does to the entries read off it. -/
theorem files_write (hplain : ∀ content ∈ data, Plain (P.sha256Hex content))
    (hf : Readable P data d.files) (hw : Fine P data K d.files w)
    (hended : ∀ delta, w = .appendIndex delta → Ended d.indexText) :
    (d.write w).files = d.files.write w := by
  cases w with
  | appendPack packId body => rfl
  | appendIndex delta =>
      rw [Disk.files, Disk.write, parseIndex_append (hended delta rfl) (plain_of_fine hplain hw)]
      rfl
  | removePack packId => rfl
  | writeIndex entries =>
      rw [Disk.files, Disk.write, parseIndex_indexLines fun e he =>
        hf.plain _ (mem_entries_of_get (hw.1 e he))]
      rfl

/-- What a crash leaves of a fine write is another fine write. -/
theorem files_cut (hplain : ∀ content ∈ data, Plain (P.sha256Hex content))
    (hf : Readable P data d.files) (hw : Fine P data K d.files w) (torn : Nat)
    (hclean : ∀ delta, w = .appendIndex delta →
      Ended d.indexText ∧ parseIndex ((indexLines delta).take torn) <+: delta) :
    ∃ w', Fine P data K d.files w' ∧ (d.cut torn w).files = d.files.write w' := by
  cases w with
  | appendPack packId body => exact ⟨.appendPack packId (body.take torn), hw, rfl⟩
  | appendIndex delta =>
      obtain ⟨hended, hstart⟩ := hclean delta rfl
      refine ⟨.appendIndex (parseIndex ((indexLines delta).take torn)),
        fun e he => hw e (hstart.subset he), ?_⟩
      rw [Disk.files, Disk.cut, parseIndex, recordsOf_append rfl hended]
      rfl
  | removePack packId => exact ⟨_, hw, rfl⟩
  | writeIndex entries => exact ⟨_, hw, files_write hplain hf hw (by rintro _ ⟨⟩)⟩

end Disk

end OpsBlobs.PackFiles
