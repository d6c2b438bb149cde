import OpsBlobs.ExclusionPolicy

namespace OpsBlobs.GlobMatch

open CodeUnits RegExp ExclusionPolicy

/-- What a glob means, read from the left: `**` stands for any run, another `*` for a run without
a slash, `?` for one unit other than a slash, and every other unit for itself. -/
inductive GlobMatches : Units → Units → Prop
  | done : GlobMatches [] []
  | anyRun {rest path : Units} (run : Units) (h : GlobMatches rest path) :
      GlobMatches (unit '*' :: unit '*' :: rest) (run ++ path)
  | segmentRun {rest path : Units} (run : Units) (hslash : unit '/' ∉ run)
      (hsingle : rest.head? ≠ some (unit '*')) (h : GlobMatches rest path) :
      GlobMatches (unit '*' :: rest) (run ++ path)
  | one {rest path : Units} {u : Fin 65536} (hslash : u ≠ unit '/') (h : GlobMatches rest path) :
      GlobMatches (unit '?' :: rest) (u :: path)
  | exactly {rest path : Units} {u : Fin 65536} (hstar : u ≠ unit '*') (hmark : u ≠ unit '?')
      (h : GlobMatches rest path) : GlobMatches (u :: rest) (u :: path)

section Compile

def globTerm (ch : Fin 65536) : Term :=
  if ch = unit '*' then .atom (.unitClass true [unit '/']) .star
  else if ch = unit '?' then .atom (.unitClass true [unit '/']) .one
  else .atom (.char ch) .one

def globTerms : Units → List Term
  | [] => []
  | [ch] => [globTerm ch]
  | ch :: next :: rest =>
      if ch = unit '*' ∧ next = unit '*' then .atom .any .star :: globTerms rest
      else globTerm ch :: globTerms (next :: rest)

def quantifiers : Units := units "*+?"

theorem parseQuantifier_one {s : Units} (h : ∀ u ∈ s.head?, u ∉ quantifiers) :
    parseQuantifier s = (.one, s) := by
  have hne : ∀ q ∈ quantifiers, s.head? ≠ some q := fun q hq he => h q he hq
  rw [parseQuantifier, if_neg (hne _ (by decide)), if_neg (hne _ (by decide)),
    if_neg (hne _ (by decide))]

theorem syntaxCharacters_eq : syntaxCharacters = ['^', '$', '\\', '.', '*', '+', '?', '(', ')', '[',
    ']', '\x7b', '\x7d', '|'].map unit := by decide

theorem escaped_eq : units ".+^$\x7b\x7d()|[]\\" = ['.', '+', '^', '$', '\x7b', '\x7d', '(', ')',
    '|', '[', ']', '\\'].map unit := by decide

/-- Between them, the two wildcards and the escaped units are all that has a meaning of its own. -/
theorem mem_syntaxCharacters_iff {ch : Fin 65536} : ch ∈ syntaxCharacters ↔
    ch = unit '*' ∨ ch = unit '?' ∨ ch ∈ units ".+^$\x7b\x7d()|[]\\" := by
  rw [syntaxCharacters_eq, escaped_eq]
  simp only [List.map_cons, List.map_nil, List.mem_cons, List.not_mem_nil, or_false]
  tauto

theorem mem_syntaxCharacters_of_quantifier {ch : Fin 65536} (h : ch ∈ quantifiers) :
    ch ∈ syntaxCharacters := by
  have hunits : quantifiers = ['*', '+', '?'].map unit := by decide
  rw [hunits] at h
  rw [syntaxCharacters_eq]
  simp only [List.map_cons, List.map_nil, List.mem_cons, List.not_mem_nil, or_false] at h ⊢
  tauto

theorem parseTerm_char {ch : Fin 65536} (hplain : ch ∉ syntaxCharacters) (s : Units) :
    parseTerm (ch :: s) =
      some (.atom (.char ch) (parseQuantifier s).1, (parseQuantifier s).2) := by
  have hne : ∀ u ∈ syntaxCharacters, ch ≠ u := fun u hu he => hplain (he ▸ hu)
  have hhead : ∀ u ∈ syntaxCharacters, (ch :: s).head? ≠ some u := fun u hu he =>
    hne u hu (Option.some.inj he)
  have hatom : parseAtom (ch :: s) = some (.char ch, s) := by
    unfold parseAtom
    dsimp only
    rw [if_neg (hne _ (by decide)), if_neg (hne _ (by decide)), if_neg (hne _ (by decide)),
      if_neg hplain]
  rw [parseTerm, if_neg (hhead _ (by decide)), if_neg (hhead _ (by decide)), hatom, Option.map_some]

theorem parseTerm_escaped {ch : Fin 65536} (hmeant : ch ∈ syntaxCharacters) (s : Units) :
    parseTerm (unit '\\' :: ch :: s) =
      some (.atom (.char ch) (parseQuantifier s).1, (parseQuantifier s).2) := by
  have hatom : parseAtom (unit '\\' :: ch :: s) = some (.char ch, s) := by
    rw [parseAtom, if_pos rfl]
    exact if_pos hmeant
  have hhead : ∀ u, u ≠ unit '\\' → (unit '\\' :: ch :: s).head? ≠ some u := fun u hu he =>
    hu (Option.some.inj he).symm
  rw [parseTerm, if_neg (hhead _ (by decide)), if_neg (hhead _ (by decide)), hatom, Option.map_some]

theorem parseTerm_globUnit (ch : Fin 65536) {s : Units} (h : ∀ u ∈ s.head?, u ∉ quantifiers) :
    parseTerm (globUnit ch ++ s) = some (globTerm ch, s) := by
  unfold globUnit globTerm
  split
  · rfl
  · split
    · have hclass : parseAtom (units "[^/]" ++ s) = some (.unitClass true [unit '/'], s) := rfl
      rw [parseTerm, hclass, Option.map_some, parseQuantifier_one h]
      rfl
    · rename_i hstar hmark
      unfold escapeRegExpChar
      split
      · rename_i hmem
        have hmeant := mem_syntaxCharacters_iff.2 (Or.inr (Or.inr hmem))
        rw [List.cons_append, List.cons_append, List.nil_append, parseTerm_escaped hmeant,
          parseQuantifier_one h]
      · rename_i hmem
        have hplain := mem_syntaxCharacters_iff.not.2 (not_or.2 ⟨hstar, not_or.2 ⟨hmark, hmem⟩⟩)
        rw [List.cons_append, List.nil_append, parseTerm_char hplain, parseQuantifier_one h]

/-- No translation begins with a quantifier, so none is read with the one before it. -/
theorem globUnit_head (ch : Fin 65536) (s : Units) :
    ∀ u ∈ (globUnit ch ++ s).head?, u ∉ quantifiers := by
  intro u hu
  unfold globUnit at hu
  split at hu
  · obtain rfl : unit '[' = u := Option.some.inj hu
    decide
  · split at hu
    · obtain rfl : unit '[' = u := Option.some.inj hu
      decide
    · rename_i hstar hmark
      unfold escapeRegExpChar at hu
      split at hu
      · obtain rfl : unit '\\' = u := Option.some.inj hu
        decide
      · rename_i hmem
        obtain rfl : ch = u := Option.some.inj hu
        intro hq
        rcases mem_syntaxCharacters_iff.1 (mem_syntaxCharacters_of_quantifier hq) with h | h | h
        · exact hstar h
        · exact hmark h
        · exact hmem h

theorem globSource_head (pattern : Units) :
    ∀ u ∈ (globSource pattern ++ [unit '$']).head?, u ∉ quantifiers := by
  intro u hu
  match pattern with
  | [] =>
      obtain rfl : unit '$' = u := Option.some.inj hu
      decide
  | [ch] => exact globUnit_head ch _ u hu
  | ch :: next :: rest =>
      rw [globSource] at hu
      split at hu
      · obtain rfl : unit '.' = u := Option.some.inj hu
        decide
      · rw [List.append_assoc] at hu
        exact globUnit_head ch _ u hu

theorem parseTerms_step {s s' : Units} {term : Term} {terms : List Term} {fuel : Nat} (hs : s ≠ [])
    (h : parseTerm s = some (term, s')) (hrest : parseTerms fuel s' = some terms) :
    parseTerms (fuel + 1) s = some (term :: terms) := by
  cases s with
  | nil => exact absurd rfl hs
  | cons u s => simp [parseTerms, h, hrest]

theorem globUnit_ne_nil (ch : Fin 65536) : globUnit ch ≠ [] := by
  unfold globUnit escapeRegExpChar
  split_ifs <;> simp [units, encode_ne_nil]

theorem parseTerms_globSource (pattern : Units) (fuel : Nat)
    (hfuel : (globSource pattern ++ [unit '$']).length ≤ fuel) :
    parseTerms fuel (globSource pattern ++ [unit '$']) = some (globTerms pattern ++ [.finish]) := by
  induction pattern using globSource.induct generalizing fuel with
  | case1 =>
      cases fuel with
      | zero => simp at hfuel
      | succ fuel => cases fuel <;> rfl
  | case2 ch =>
      have hpos := List.length_pos_iff.2 (globUnit_ne_nil ch)
      simp only [globSource, List.length_append, List.length_singleton] at hfuel
      obtain ⟨fuel, rfl⟩ := Nat.exists_eq_add_of_le' (Nat.le_trans (by omega : 2 ≤ _) hfuel)
      have hend : ∀ u ∈ [unit '$'].head?, u ∉ quantifiers := globSource_head []
      refine parseTerms_step (by simp) (parseTerm_globUnit ch hend) ?_
      cases fuel <;> rfl
  | case3 ch next rest hstars ih =>
      obtain ⟨rfl, rfl⟩ := hstars
      rw [globSource, globTerms, if_pos ⟨rfl, rfl⟩, if_pos ⟨rfl, rfl⟩] at *
      have hlen : (units ".*").length = 2 := by decide
      rw [List.append_assoc] at hfuel ⊢
      rw [List.length_append, hlen] at hfuel
      obtain ⟨fuel, rfl⟩ := Nat.exists_eq_add_of_le' (Nat.le_trans (by omega : 1 ≤ _) hfuel)
      exact parseTerms_step (by simp) rfl (ih fuel (by omega))
  | case4 ch next rest hstars ih =>
      have hpos := List.length_pos_iff.2 (globUnit_ne_nil ch)
      rw [globSource, globTerms, if_neg hstars, if_neg hstars, List.append_assoc] at *
      rw [List.length_append] at hfuel
      obtain ⟨fuel, rfl⟩ := Nat.exists_eq_add_of_le' (Nat.le_trans (by omega : 1 ≤ _) hfuel)
      exact parseTerms_step (by simp) (parseTerm_globUnit ch (globSource_head _))
        (ih fuel (by omega))

theorem globToRegExp_eq (pattern : Units) :
    globToRegExp pattern = some (.start :: (globTerms pattern ++ [.finish])) := by
  refine parseTerms_step (List.cons_ne_nil _ _) (if_pos rfl) ?_
  exact parseTerms_globSource pattern _ (Nat.le_refl _)

end Compile

section Language

variable {rest path : Units} {ch : Fin 65536}

theorem globMatches_nil : GlobMatches [] path ↔ path = [] := by
  constructor
  · intro h
    cases h
    rfl
  · rintro rfl
    exact .done

theorem globMatches_stars : GlobMatches (unit '*' :: unit '*' :: rest) path ↔
    ∃ run tail, path = run ++ tail ∧ GlobMatches rest tail := by
  constructor
  · intro h
    cases h with
    | anyRun run h => exact ⟨run, _, rfl, h⟩
    | segmentRun run _ hsingle _ => exact absurd rfl hsingle
    | exactly hstar _ _ => exact absurd rfl hstar
  · rintro ⟨run, tail, rfl, h⟩
    exact .anyRun run h

theorem globMatches_star (hsingle : rest.head? ≠ some (unit '*')) :
    GlobMatches (unit '*' :: rest) path ↔
      ∃ run tail, path = run ++ tail ∧ unit '/' ∉ run ∧ GlobMatches rest tail := by
  constructor
  · intro h
    cases h with
    | anyRun run h => exact absurd rfl hsingle
    | segmentRun run hslash _ h => exact ⟨run, _, rfl, hslash, h⟩
    | exactly hstar _ _ => exact absurd rfl hstar
  · rintro ⟨run, tail, rfl, hslash, h⟩
    exact .segmentRun run hslash hsingle h

theorem globMatches_mark : GlobMatches (unit '?' :: rest) path ↔
    ∃ u tail, path = u :: tail ∧ u ≠ unit '/' ∧ GlobMatches rest tail := by
  constructor
  · intro h
    cases h with
    | one hslash h => exact ⟨_, _, rfl, hslash, h⟩
    | exactly _ hmark _ => exact absurd rfl hmark
  · rintro ⟨u, tail, rfl, hslash, h⟩
    exact .one hslash h

theorem globMatches_exactly (hstar : ch ≠ unit '*') (hmark : ch ≠ unit '?') :
    GlobMatches (ch :: rest) path ↔ ∃ tail, path = ch :: tail ∧ GlobMatches rest tail := by
  constructor
  · intro h
    cases h with
    | anyRun _ _ => exact absurd rfl hstar
    | segmentRun _ _ _ _ => exact absurd rfl hstar
    | one _ _ => exact absurd rfl hmark
    | exactly _ _ h => exact ⟨_, rfl, h⟩
  · rintro ⟨tail, rfl, h⟩
    exact .exactly hstar hmark h

theorem test_notSlash {u : Fin 65536} :
    (Atom.unitClass true [unit '/']).test u = true ↔ u ≠ unit '/' := by
  simp [Atom.test]

/-- The terms match behind every part of the path as the glob does. -/
def Follows (terms : List Term) (glob path : Units) : Prop :=
  ∀ atStart tail, List.Sublist tail path → (matchTerms terms atStart tail = true ↔
    GlobMatches glob tail)

theorem matchTerms_globTerm {terms : List Term} (h : Follows terms rest path)
    (hsingle : ¬ (ch = unit '*' ∧ rest.head? = some (unit '*'))) (atStart : Bool) :
    matchTerms (globTerm ch :: terms) atStart path = true ↔ GlobMatches (ch :: rest) path := by
  unfold globTerm
  split
  · rename_i hstar
    subst hstar
    rw [matchTerms, matchRun_iff h, globMatches_star fun hc => hsingle ⟨rfl, hc⟩]
    simp only [test_notSlash]
    refine exists_congr fun run => exists_congr fun tail => and_congr_right fun _ => ?_
    refine and_congr_left fun _ => ⟨fun hrun hmem => hrun _ hmem rfl, fun hslash u hu he => ?_⟩
    exact hslash (he ▸ hu)
  · split
    · rename_i hmark
      subst hmark
      rw [globMatches_mark]
      cases path with
      | nil => simp [matchTerms]
      | cons u tail =>
          rw [matchTerms, Bool.and_eq_true, test_notSlash, h false tail (List.sublist_cons_self u tail)]
          simp
    · rename_i hstar hmark
      rw [globMatches_exactly hstar hmark]
      cases path with
      | nil => simp [matchTerms]
      | cons u tail =>
          rw [matchTerms, Bool.and_eq_true, h false tail (List.sublist_cons_self u tail)]
          simp [Atom.test]

theorem follows_globTerms (pattern : Units) (hpath : ∀ u ∈ path, isLineTerminator u = false) :
    Follows (globTerms pattern ++ [.finish]) pattern path := by
  have hfinish : Follows [.finish] [] path := by
    intro atStart tail _
    rw [matchTerms, globMatches_nil]
    simp [matchTerms]
  induction pattern using globTerms.induct with
  | case1 => exact hfinish
  | case2 ch =>
      intro atStart tail hsub
      refine matchTerms_globTerm (fun b t ht => hfinish b t (ht.trans hsub)) ?_ atStart
      rintro ⟨-, hc⟩
      cases hc
  | case3 ch next rest hstars ih =>
      obtain ⟨rfl, rfl⟩ := hstars
      intro atStart tail hsub
      rw [globTerms, if_pos ⟨rfl, rfl⟩, List.cons_append, matchTerms,
        matchRun_iff fun b t ht => ih b t (ht.trans hsub), globMatches_stars]
      refine exists_congr fun run => exists_congr fun behind => and_congr_right fun heq => ?_
      refine and_iff_right fun u hu => ?_
      have hmem : u ∈ path := hsub.subset (heq ▸ List.mem_append_left _ hu)
      simp [Atom.test, hpath u hmem]
  | case4 ch next rest hstars ih =>
      intro atStart tail hsub
      rw [globTerms, if_neg hstars, List.cons_append]
      refine matchTerms_globTerm (fun b t ht => ih b t (ht.trans hsub)) ?_ atStart
      rintro ⟨rfl, hc⟩
      exact hstars ⟨rfl, Option.some.inj hc⟩

theorem test_globToRegExp (pattern : Units) (hpath : ∀ u ∈ path, isLineTerminator u = false) :
    ∃ re, globToRegExp pattern = some re ∧ (test re path = true ↔ GlobMatches pattern path) := by
  refine ⟨_, globToRegExp_eq pattern, ?_⟩
  rw [test_start]
  exact follows_globTerms pattern hpath true path (List.Sublist.refl _)

end Language

section Cache

/-- The compiled patterns kept between calls, each under the pattern it came from. -/
structure RegExpCache where
  entries : List (Units × List Term)
  sound : ∀ pattern re, JsMap.lookup pattern entries = some re → globToRegExp pattern = some re

def RegExpCache.empty : RegExpCache := ⟨[], fun _ _ h => nomatch h⟩

theorem sound_put (cache : RegExpCache) {pattern : Units} {re : List Term}
    (hre : globToRegExp pattern = some re) :
    ∀ p r, JsMap.lookup p (JsMap.put pattern re cache.entries) = some r → globToRegExp p = some r := by
  intro p r h
  rw [JsMap.lookup_put] at h
  split at h
  · rename_i hp
    rw [← hp, hre, h]
  · exact cache.sound p r h

/-- `globToRegExp` with its cache; none when the pattern does not compile. -/
def cachedRegExp (cache : RegExpCache) (pattern : Units) : Option (List Term × RegExpCache) :=
  match JsMap.lookup pattern cache.entries with
  | some re => some (re, cache)
  | none =>
      match h : globToRegExp pattern with
      | some re => some (re, ⟨JsMap.put pattern re cache.entries, sound_put cache h⟩)
      | none => none

def cachedMatches (path : Units) : List Units → RegExpCache → Option (Bool × RegExpCache)
  | [], cache => some (false, cache)
  | pattern :: patterns, cache => do
      let (re, cache) ← cachedRegExp cache pattern
      if test re path then some (true, cache) else cachedMatches path patterns cache

theorem cachedRegExp_spec (cache : RegExpCache) (pattern : Units) :
    ∃ re cache', cachedRegExp cache pattern = some (re, cache') ∧ globToRegExp pattern = some re := by
  unfold cachedRegExp
  split
  · rename_i re hre
    exact ⟨re, cache, rfl, cache.sound pattern re hre⟩
  · split
    · rename_i re hre
      exact ⟨re, _, rfl, hre⟩
    · rename_i hnone
      rw [globToRegExp_eq] at hnone
      cases hnone

theorem cachedMatches_spec (path : Units) (patterns : List Units) (cache : RegExpCache) :
    ∃ cache', cachedMatches path patterns cache = some (matchesPattern path patterns, cache') := by
  induction patterns generalizing cache with
  | nil => exact ⟨cache, rfl⟩
  | cons pattern patterns ih =>
      obtain ⟨re, cache', hcached, hre⟩ := cachedRegExp_spec cache pattern
      simp only [cachedMatches, hcached, Option.bind_eq_bind, Option.bind_some, matchesPattern,
        List.any_cons, hre, Option.any_some]
      split
      · rename_i htest
        exact ⟨cache', by rw [htest, Bool.true_or]⟩
      · rename_i htest
        rw [Bool.not_eq_true] at htest
        rw [htest, Bool.false_or]
        exact ih cache'

/-- `isExcluded`, threading the cache through the patterns that it comes to. -/
def isExcludedCached (path : Units) (excludedPatterns : List Units) (syncObsidianConfig : Bool)
    (cache : RegExpCache) : Option (Bool × RegExpCache) :=
  if startsWith path (units STATE_DIR) then some (true, cache)
  else if startsWith path (units OWN_PLUGIN_DIR) then some (true, cache)
  else if (WORKSPACE_FILES.map units).contains path then some (true, cache)
  else if startsWith path (units OBSIDIAN_DIR) && !syncObsidianConfig then some (true, cache)
  else cachedMatches path excludedPatterns cache

theorem isExcludedCached_spec (path : Units) (patterns : List Units) (sync : Bool)
    (cache : RegExpCache) : ∃ cache', isExcludedCached path patterns sync cache =
      some (isExcludedUnits path patterns sync, cache') := by
  obtain ⟨cache', hmatches⟩ := cachedMatches_spec path patterns cache
  unfold isExcludedCached isExcludedUnits
  rw [hmatches]
  split_ifs with h₁ h₂ h₃ h₄
  · exact ⟨cache, by rw [h₁]; rfl⟩
  · exact ⟨cache, by rw [h₂]; simp⟩
  · exact ⟨cache, by rw [h₃]; simp⟩
  · exact ⟨cache, by rw [h₄]; simp⟩
  · simp only [Bool.not_eq_true] at h₁ h₂ h₃ h₄
    exact ⟨cache', by rw [h₁, h₂, h₃, h₄]; simp⟩

end Cache

section Excluded

variable {path : Units}

/-- What is excluded whatever the patterns say. -/
def HardExcluded (path : Units) (syncObsidianConfig : Bool) : Prop :=
  units STATE_DIR <+: path ∨ units OWN_PLUGIN_DIR <+: path ∨ path ∈ WORKSPACE_FILES.map units ∨
    units OBSIDIAN_DIR <+: path ∧ syncObsidianConfig = false

theorem isExcludedUnits_iff (patterns : List Units) (sync : Bool) :
    isExcludedUnits path patterns sync = true ↔
      HardExcluded path sync ∨ matchesPattern path patterns = true := by
  unfold isExcludedUnits HardExcluded startsWith
  generalize units STATE_DIR = state
  generalize units OWN_PLUGIN_DIR = plugin
  generalize WORKSPACE_FILES.map units = workspace
  generalize units OBSIDIAN_DIR = obsidian
  simp only [Bool.or_eq_true, Bool.and_eq_true, List.isPrefixOf_iff_prefix, List.contains_iff_mem,
    Bool.not_eq_true', or_assoc]

theorem matchesPattern_iff (patterns : List Units)
    (hpath : ∀ u ∈ path, isLineTerminator u = false) :
    matchesPattern path patterns = true ↔ ∃ pattern ∈ patterns, GlobMatches pattern path := by
  rw [matchesPattern, List.any_eq_true]
  refine exists_congr fun pattern => and_congr_right fun _ => ?_
  obtain ⟨re, hre, htest⟩ := test_globToRegExp pattern hpath
  rw [hre, Option.any_some, htest]

/-- Whatever was compiled before, the expression for a pattern accepts what the glob means, and
the exclusions are the hard ones and those of the globs. -/
theorem excluded_by_globs (path : Units) (hpath : ∀ u ∈ path, isLineTerminator u = false)
    (cache : RegExpCache) :
    (∀ pattern, ∃ re cache', cachedRegExp cache pattern = some (re, cache') ∧
      (test re path = true ↔ GlobMatches pattern path)) ∧
    ∀ patterns sync, ∃ answer cache',
      isExcludedCached path patterns sync cache = some (answer, cache') ∧
        (answer = true ↔ HardExcluded path sync ∨
          ∃ pattern ∈ patterns, GlobMatches pattern path) := by
  refine ⟨fun pattern => ?_, fun patterns sync => ?_⟩
  · obtain ⟨re, cache', hcached, hre⟩ := cachedRegExp_spec cache pattern
    obtain ⟨re', hre', htest⟩ := test_globToRegExp pattern hpath
    obtain rfl : re = re' := Option.some.inj (hre.symm.trans hre')
    exact ⟨re, cache', hcached, htest⟩
  · obtain ⟨cache', hanswer⟩ := isExcludedCached_spec path patterns sync cache
    refine ⟨_, cache', hanswer, ?_⟩
    rw [isExcludedUnits_iff, matchesPattern_iff patterns hpath]

theorem excluded_by_globs_drafts :
    (∀ pattern, ∃ re cache', cachedRegExp .empty pattern = some (re, cache') ∧
      (test re (units "drafts/a+b.md") = true ↔ GlobMatches pattern (units "drafts/a+b.md"))) ∧
    ∀ patterns sync, ∃ answer cache',
      isExcludedCached (units "drafts/a+b.md") patterns sync .empty = some (answer, cache') ∧
        (answer = true ↔ HardExcluded (units "drafts/a+b.md") sync ∨
          ∃ pattern ∈ patterns, GlobMatches pattern (units "drafts/a+b.md")) := by
  have hpath : (units "drafts/a+b.md").all (fun u => !isLineTerminator u) = true := by
    decide +kernel
  exact excluded_by_globs _ (fun u hu => Bool.not_eq_true' _ ▸ List.all_eq_true.1 hpath u hu) .empty

end Excluded

end OpsBlobs.GlobMatch
