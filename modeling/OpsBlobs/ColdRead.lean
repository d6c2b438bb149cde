import OpsBlobs.Base64
import OpsBlobs.JsNumber
import OpsBlobs.Types

namespace OpsBlobs.ColdRead

open Types JsNumber Base64

/-- A text of the language: a list of 16-bit code units. -/
abbrev Units := List UInt16

def unitsOf (c : Char) : Units :=
  if c.toNat < 0x10000 then [UInt16.ofNat c.toNat]
  else [UInt16.ofNat (0xD800 + (c.toNat - 0x10000) / 0x400),
    UInt16.ofNat (0xDC00 + (c.toNat - 0x10000) % 0x400)]

def units (s : String) : Units := s.toList.flatMap unitsOf

/-- What a digit or base64 decoder sees of a code unit; half of a pair is no character. -/
def charOf (u : UInt16) : Char := Char.ofNat u.toNat

def NEWLINE : UInt16 := UInt16.ofNat '\n'.toNat

def SPACE : UInt16 := UInt16.ofNat ' '.toNat

/-- Where a packed blob's base64 text lies, as the index line has it. -/
structure PackLoc where
  packId : Units
  offset : Finite
  len : Finite
  deriving DecidableEq

def PACK_DIR : String := ".opsblobs/content/pack"

def PACK_INDEX_PATH : String := PACK_DIR ++ "/index"

def packPath (packId : Units) : Units := units (PACK_DIR ++ "/") ++ packId ++ units ".pack"

/-- The vault's metadata files: what a read of a path gives. -/
structure MetadataStore where
  read : Units → Option Units

/-- The store as `init` leaves it: the cache is empty and no blob is pending. -/
structure ContentStore where
  memCache : JsMap Units Bytes
  index : JsMap Units PackLoc

section Init

/-- A line that lacks a field, or has one that is no number, is dropped. -/
def parseLine (line : Units) : Option (Units × PackLoc) :=
  match line.splitOn SPACE with
  | [hash, packId, off, len] => do
      let offset ← number (off.map charOf)
      let length ← number (len.map charOf)
      if hash = [] ∨ packId = [] then none else some (hash, ⟨packId, offset, length⟩)
  | _ => none

def loadLine (index : JsMap Units PackLoc) (line : Units) : JsMap Units PackLoc :=
  match parseLine line with
  | some e => index.set e.1 e.2
  | none => index

def loadPackIndex (raw : Option Units) : JsMap Units PackLoc :=
  match raw with
  | some raw => (raw.splitOn NEWLINE).foldl loadLine .empty
  | none => .empty

def init (metadata : MetadataStore) : ContentStore :=
  ⟨.empty, loadPackIndex (metadata.read (units PACK_INDEX_PATH))⟩

end Init

section Get

/-- `substr`: a negative start counts from the end. -/
def substr (text : Units) (start length : Finite) : Units :=
  let size : Int := text.length
  let first := if start.trunc < 0 then max (size + start.trunc) 0 else min start.trunc size
  let count := min (max length.trunc 0) size
  (text.drop first.toNat).take count.toNat

def base64ToUint8 (b64 : Units) : Option Bytes := atob (b64.map charOf)

variable (P : Platform) (budget : Nat) (metadata : MetadataStore)

def hashContent (content : Bytes) : Units := units (P.sha256Hex content)

def memBytes (memCache : JsMap Units Bytes) : Nat := (memCache.values.map List.length).sum

/-- The oldest blobs go until the rest fits the budget. -/
def evict (memCache : JsMap Units Bytes) (hash : Units) : JsMap Units Bytes :=
  if memBytes memCache ≤ budget then memCache else memCache.delete hash

def cacheSet (memCache : JsMap Units Bytes) (hash : Units) (content : Bytes) : JsMap Units Bytes :=
  let renewed := (memCache.delete hash).set hash content
  renewed.keys.foldl (evict budget) renewed

/-- The blob of one index entry in the text of its pack: null when the text is too short or
does not hash back, and none when it is no base64, where `atob` throws. -/
def extract (pack hash : Units) (loc : PackLoc) : Option (Option Bytes) :=
  let body := substr pack loc.offset loc.len
  if ofNat body.length ≠ loc.len then some none
  else (base64ToUint8 body).map fun content =>
    if hashContent P content = hash then some content else none

/-- One entry of the index, while a pack is read: the answer so far, and the cache. -/
def readEntry (pack packId hash : Units) (read : Option Bytes × JsMap Units Bytes)
    (e : Units × PackLoc) : Option (Option Bytes × JsMap Units Bytes) :=
  if e.2.packId ≠ packId ∨ read.2.has e.1 = true then some read
  else
    (extract P pack e.1 e.2).map fun body =>
      match body with
      | none => read
      | some content => (if e.1 = hash then some content else read.1,
          cacheSet budget read.2 e.1 content)

/-- None is the read that throws. -/
def getFromPack (s : ContentStore) (hash : Units) : Option (Option Bytes × JsMap Units Bytes) :=
  match s.index.get hash with
  | none => some (none, s.memCache)
  | some loc =>
      match metadata.read (packPath loc.packId) with
      | none => some (none, s.memCache)
      | some pack =>
          s.index.entries.foldlM (readEntry P budget pack loc.packId hash)
            (s.memCache.get hash, s.memCache)

def get (s : ContentStore) (hash : Units) : Option (Option Bytes × JsMap Units Bytes) :=
  match s.memCache.get hash with
  | some cached => some (some cached, (s.memCache.delete hash).set hash cached)
  | none => getFromPack P budget metadata s hash

end Get

section Reads

variable (P : Platform) (budget : Nat) (metadata : MetadataStore)

/-- The place that the last line for the hash gives, and the text of that pack. -/
def LiesIn (hash : Units) (loc : PackLoc) (pack : Units) : Prop :=
  (init metadata).index.get hash = some loc ∧ metadata.read (packPath loc.packId) = some pack

/-- The hash's own line and its own bytes are as they should be. -/
def Intact (hash : Units) (content : Bytes) : Prop :=
  ∃ loc pack, LiesIn metadata hash loc pack ∧ extract P pack hash loc = some (some content)

/-- A read right after the start does not throw, gives bytes of that hash or null, and gives
an intact blob whatever lies beside it. -/
def ReadsSoundly (hash : Units) : Prop :=
  ∃ answer cache, get P budget metadata (init metadata) hash = some (answer, cache) ∧
    (∀ bytes, answer = some bytes → hashContent P bytes = hash) ∧
    ∀ content, Intact P metadata hash content → answer = some content

/-- Every index entry of the pack that the hash lies in has either less text there than it
says, or base64. -/
def NeighboursDecode (hash : Units) : Prop :=
  ∀ loc pack, LiesIn metadata hash loc pack →
    ∀ hash' loc', (init metadata).index.get hash' = some loc' → loc'.packId = loc.packId →
      ofNat (substr pack loc'.offset loc'.len).length = loc'.len →
        (base64ToUint8 (substr pack loc'.offset loc'.len)).isSome

variable {P budget metadata} {pack packId hash : Units}

theorem extract_isSome {loc : PackLoc} : (extract P pack hash loc).isSome ↔
    (ofNat (substr pack loc.offset loc.len).length = loc.len →
      (base64ToUint8 (substr pack loc.offset loc.len)).isSome) := by
  simp only [extract]
  split
  · rename_i hlen
    exact iff_of_true rfl fun h => absurd h hlen
  · rename_i hlen
    rw [Option.isSome_map, not_not] at *
    exact ⟨fun h _ => h, fun h => h hlen⟩

theorem hash_of_extract {loc : PackLoc} {content : Bytes}
    (h : extract P pack hash loc = some (some content)) : hashContent P content = hash := by
  simp only [extract] at h
  split at h
  · cases h
  · obtain ⟨bytes, -, hbytes⟩ := Option.map_eq_some_iff.1 h
    split at hbytes
    · rename_i heq
      exact Option.some.inj hbytes ▸ heq
    · cases hbytes

theorem keys_evict {memCache : JsMap Units Bytes} {k : Units}
    (h : k ∈ (evict budget memCache hash).keys) : k ∈ memCache.keys := by
  unfold evict at h
  split at h
  · exact h
  · rw [JsMap.mem_keys_iff] at h ⊢
    rw [JsMap.get_delete] at h
    split at h
    · exact absurd h (by simp)
    · exact h

theorem keys_cacheSet {memCache : JsMap Units Bytes} {content : Bytes} {k : Units}
    (h : k ∈ (cacheSet budget memCache hash content).keys) : k = hash ∨ k ∈ memCache.keys := by
  have hevict : ∀ (ks : List Units) (m : JsMap Units Bytes),
      k ∈ (ks.foldl (evict budget) m).keys → k ∈ m.keys := by
    intro ks
    induction ks with
    | nil => exact fun m hm => hm
    | cons k' ks ih => exact fun m hm => keys_evict (ih _ hm)
  have := hevict _ _ h
  rw [JsMap.mem_keys_iff] at this ⊢
  rw [JsMap.get_set] at this
  split at this
  · rename_i heq
    exact Or.inl heq.symm
  · rw [JsMap.get_delete] at this
    split at this
    · exact absurd this (by simp)
    · exact Or.inr this

/-- What the entries of the pack say of the hash. -/
def answerFrom (P : Platform) (pack packId hash : Units) (answer : Option Bytes)
    (e : Units × PackLoc) : Option Bytes :=
  if e.2.packId = packId ∧ e.1 = hash then ((extract P pack e.1 e.2).getD none).or answer
  else answer

/-- The pass over the index, from a cache that holds none of the entries still to come. -/
theorem readEntries (P : Platform) (budget : Nat) (pack packId hash : Units)
    {todo : List (Units × PackLoc)} (hnodup : (todo.map Prod.fst).Nodup) (answer : Option Bytes)
    {memCache : JsMap Units Bytes}
    (hcold : ∀ e ∈ todo, e.1 ∉ memCache.keys) :
    ((todo.foldlM (readEntry P budget pack packId hash) (answer, memCache)).isSome ↔
      ∀ e ∈ todo, e.2.packId = packId → (extract P pack e.1 e.2).isSome) ∧
    ∀ answer' cache', todo.foldlM (readEntry P budget pack packId hash) (answer, memCache) =
      some (answer', cache') → answer' = todo.foldl (answerFrom P pack packId hash) answer := by
  induction todo generalizing answer memCache with
  | nil =>
      refine ⟨iff_of_true rfl (by simp), ?_⟩
      intro answer' cache' h
      exact (congrArg Prod.fst (Option.some.inj h)).symm
  | cons e todo ih =>
      obtain ⟨hnew, hnodup⟩ := List.nodup_cons.1 hnodup
      have hmiss : ¬ memCache.has e.1 = true := fun h =>
        hcold e List.mem_cons_self ((JsMap.mem_keys_iff memCache).2 ((JsMap.has_iff _ _).1 h))
      have hrest : ∀ e' ∈ todo, e'.1 ∉ memCache.keys :=
        fun e' he' => hcold e' (List.mem_cons_of_mem _ he')
      rw [List.foldlM_cons, List.foldl_cons, List.forall_mem_cons]
      by_cases hpack : e.2.packId = packId
      · have hstep : readEntry P budget pack packId hash (answer, memCache) e =
            (extract P pack e.1 e.2).map fun body =>
              match body with
              | none => (answer, memCache)
              | some content => (if e.1 = hash then some content else answer,
                  cacheSet budget memCache e.1 content) := by
          rw [readEntry, if_neg]
          rintro (h | h)
          · exact h hpack
          · exact hmiss h
        rw [hstep]
        cases hx : extract P pack e.1 e.2 with
        | none => simp [hpack]
        | some body =>
            cases body with
            | none =>
                have hsame : answerFrom P pack packId hash answer e = answer := by
                  simp [answerFrom, hx]
                rw [hsame]
                simpa [hpack, hx] using ih hnodup answer hrest
            | some content =>
                have hafter : ∀ e' ∈ todo, e'.1 ∉ (cacheSet budget memCache e.1 content).keys := by
                  intro e' he' hmem
                  rcases keys_cacheSet hmem with heq | hmem
                  · exact hnew (heq ▸ List.mem_map_of_mem he')
                  · exact hrest e' he' hmem
                have hans : answerFrom P pack packId hash answer e =
                    if e.1 = hash then some content else answer := by
                  simp [answerFrom, hx, hpack]
                rw [hans]
                simpa [hpack, hx] using ih hnodup _ hafter
      · have hstep : readEntry P budget pack packId hash (answer, memCache) e =
            some (answer, memCache) := if_pos (Or.inl hpack)
        have hsame : answerFrom P pack packId hash answer e = answer := by
          simp [answerFrom, hpack]
        rw [hstep, hsame, Option.bind_eq_bind, Option.bind_some]
        exact ⟨(ih hnodup answer hrest).1.trans (and_iff_right (fun hp => absurd hp hpack)).symm,
          (ih hnodup answer hrest).2⟩

theorem answerFrom_entries {entries : List (Units × PackLoc)}
    (hnodup : (entries.map Prod.fst).Nodup) {loc : PackLoc} (hmem : (hash, loc) ∈ entries) :
    entries.foldl (answerFrom P pack loc.packId hash) none = (extract P pack hash loc).getD none := by
  have hother : ∀ (l : List (Units × PackLoc)) answer, (∀ e ∈ l, e.1 ≠ hash) →
      l.foldl (answerFrom P pack loc.packId hash) answer = answer := by
    intro l
    induction l with
    | nil => exact fun _ _ => rfl
    | cons e l ih =>
        intro answer hl
        rw [List.foldl_cons, answerFrom, if_neg fun h => hl e List.mem_cons_self h.2]
        exact ih answer fun e' he' => hl e' (List.mem_cons_of_mem _ he')
  obtain ⟨before, after, rfl⟩ := List.append_of_mem hmem
  rw [List.map_append, List.map_cons, List.nodup_middle, List.nodup_cons] at hnodup
  have hne : ∀ e ∈ before ++ after, e.1 ≠ hash := by
    rintro e he rfl
    exact hnodup.1 (List.map_append ▸ List.mem_map.2 ⟨e, he, rfl⟩)
  rw [List.foldl_append, hother before none fun e he => hne e (List.mem_append_left _ he),
    List.foldl_cons, hother after _ fun e he => hne e (List.mem_append_right _ he), answerFrom,
    if_pos ⟨rfl, rfl⟩, Option.or_none]

/-- What a read right after the start comes to. -/
theorem get_init (P : Platform) (budget : Nat) (metadata : MetadataStore) (hash : Units) :
    (∃ cache, get P budget metadata (init metadata) hash = some (none, cache)) ∧
        (∀ loc pack, ¬ LiesIn metadata hash loc pack) ∨
      ∃ loc pack, LiesIn metadata hash loc pack ∧
        ((get P budget metadata (init metadata) hash).isSome ↔ NeighboursDecode metadata hash) ∧
        ∀ answer cache, get P budget metadata (init metadata) hash = some (answer, cache) →
          answer = (extract P pack hash loc).getD none := by
  have hget : get P budget metadata (init metadata) hash =
      getFromPack P budget metadata (init metadata) hash := rfl
  rw [hget, getFromPack]
  cases hloc : (init metadata).index.get hash with
  | none => exact Or.inl ⟨⟨_, rfl⟩, fun loc pack h => by cases hloc.symm.trans h.1⟩
  | some loc =>
      cases hpack : metadata.read (packPath loc.packId) with
      | none =>
          simp only [hpack]
          refine Or.inl ⟨⟨_, rfl⟩, fun loc' pack h => ?_⟩
          obtain rfl := Option.some.inj (hloc.symm.trans h.1)
          cases hpack.symm.trans h.2
      | some pack =>
          simp only [hpack]
          have hcold : ∀ e ∈ (init metadata).index.entries, e.1 ∉ (init metadata).memCache.keys :=
            fun e _ => List.not_mem_nil
          have hread := readEntries P budget pack loc.packId hash (init metadata).index.nodup none
            hcold
          refine Or.inr ⟨loc, pack, ⟨hloc, hpack⟩, hread.1.trans ?_, ?_⟩
          · constructor
            · intro h loc' pack' hlies hash' loc'' hentry hid hlen
              obtain rfl := Option.some.inj (hloc.symm.trans hlies.1)
              obtain rfl := Option.some.inj (hpack.symm.trans hlies.2)
              exact extract_isSome.1 (h (hash', loc'') ((JsMap.mem_entries_iff _).2 hentry) hid) hlen
            · intro h e he hid
              exact extract_isSome.2 (h loc pack ⟨hloc, hpack⟩ e.1 e.2
                ((JsMap.mem_entries_iff _).1 he) hid)
          · intro answer cache h
            rw [hread.2 answer cache h]
            exact answerFrom_entries (init metadata).index.nodup ((JsMap.mem_entries_iff _).2 hloc)

/-- A cold read is sound exactly if no text that the index names in its pack fails to decode. -/
theorem get_sound_iff (P : Platform) (budget : Nat) (metadata : MetadataStore) (hash : Units) :
    ReadsSoundly P budget metadata hash ↔ NeighboursDecode metadata hash := by
  rcases get_init P budget metadata hash with
    ⟨⟨cache, hget⟩, hnone⟩ | ⟨loc, pack, hlies, hsome, hanswer⟩
  · refine iff_of_true ⟨none, cache, hget, by simp, ?_⟩ fun loc pack h => absurd h (hnone loc pack)
    rintro content ⟨loc, pack, h, -⟩
    exact absurd h (hnone loc pack)
  · rw [← hsome, Option.isSome_iff_exists]
    constructor
    · rintro ⟨answer, cache, hget, -⟩
      exact ⟨_, hget⟩
    · rintro ⟨⟨answer, cache⟩, hget⟩
      have hans := hanswer answer cache hget
      refine ⟨answer, cache, hget, ?_, ?_⟩
      · rintro bytes rfl
        cases hx : extract P pack hash loc with
        | none => cases hx ▸ hans
        | some body =>
            rw [hx] at hans
            exact hash_of_extract (hx.trans (congrArg some hans.symm))
      · rintro content ⟨loc', pack', hlies', hx⟩
        obtain rfl := Option.some.inj (hlies.1.symm.trans hlies'.1)
        obtain rfl := Option.some.inj (hlies.2.symm.trans hlies'.2)
        rw [hans, hx]
        rfl

/-- The index names two blobs of one pack, and the second of them is no base64. -/
def oneBad : MetadataStore where
  read path :=
    if path = units PACK_INDEX_PATH then some (units "h 0 0 4\nx 0 4 4\n")
    else if path = packPath (units "0") then some (units "aA==!!!!")
    else none

theorem get_not_sound :
    ¬ ∀ metadata hash, ReadsSoundly asciiPlatform 1024 metadata hash := by
  intro h
  obtain ⟨answer, cache, hget, -⟩ := h oneBad (units "h")
  have hthrows : get asciiPlatform 1024 oneBad (init oneBad) (units "h") = none := by
    decide +kernel
  cases hthrows.symm.trans hget

end Reads

end OpsBlobs.ColdRead
