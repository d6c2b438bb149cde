import OpsBlobs.CodeUnits

namespace OpsBlobs.RegExp

open CodeUnits

/-- What one code unit is tested for: the unit itself, `.` or a class `[...]`. -/
inductive Atom
  | char (u : Fin 65536)
  | any
  | unitClass (negated : Bool) (members : Units)
  deriving DecidableEq, Repr

inductive Quantifier
  | one
  | star
  | plus
  | optional
  deriving DecidableEq, Repr

inductive Term
  | start
  | finish
  | atom (a : Atom) (q : Quantifier)
  deriving DecidableEq, Repr

section Syntax

def syntaxCharacters : Units := units "^$\\.*+?()[]\x7b\x7d|"

/-- The members of a class up to its `]`; neither escapes nor ranges are modelled. -/
def parseMembers : Units → Option (Units × Units)
  | [] => none
  | u :: s =>
      if u = unit ']' then some ([], s)
      else if u = unit '\\' ∨ u = unit '-' then none
      else (parseMembers s).map fun r => (u :: r.1, r.2)

def parseClass (s : Units) : Option (Atom × Units) :=
  if s.head? = some (unit '^') then (parseMembers s.tail).map fun r => (.unitClass true r.1, r.2)
  else (parseMembers s).map fun r => (.unitClass false r.1, r.2)

/-- Of the escapes only those of syntax characters are modelled, of the brackets only classes. -/
def parseAtom : Units → Option (Atom × Units)
  | [] => none
  | u :: s =>
      if u = unit '\\' then
        match s with
        | v :: s => if v ∈ syntaxCharacters then some (.char v, s) else none
        | [] => none
      else if u = unit '.' then some (.any, s)
      else if u = unit '[' then parseClass s
      else if u ∈ syntaxCharacters then none
      else some (.char u, s)

def parseQuantifier (s : Units) : Quantifier × Units :=
  if s.head? = some (unit '*') then (.star, s.tail)
  else if s.head? = some (unit '+') then (.plus, s.tail)
  else if s.head? = some (unit '?') then (.optional, s.tail)
  else (.one, s)

def parseTerm (s : Units) : Option (Term × Units) :=
  if s.head? = some (unit '^') then some (.start, s.tail)
  else if s.head? = some (unit '$') then some (.finish, s.tail)
  else (parseAtom s).map fun r => (.atom r.1 (parseQuantifier r.2).1, (parseQuantifier r.2).2)

def parseTerms : Nat → Units → Option (List Term)
  | _, [] => some []
  | 0, _ :: _ => none
  | fuel + 1, u :: s => do
      let (term, rest) ← parseTerm (u :: s)
      let terms ← parseTerms fuel rest
      some (term :: terms)

/-- `new RegExp(source)`; none for a syntax error, and for the syntax that is not modelled. -/
def compile (source : Units) : Option (List Term) := parseTerms source.length source

end Syntax

section Match

/-- What `.` does not match. -/
def isLineTerminator (u : Fin 65536) : Bool := u ∈ [0xA, 0xD, 0x2028, 0x2029]

def Atom.test : Atom → Fin 65536 → Bool
  | .char v, u => u = v
  | .any, u => !isLineTerminator u
  | .unitClass negated members, u => members.contains u != negated

/-- As many units as possible, then fewer; `next` matches what is behind them. -/
def matchRun (p : Fin 65536 → Bool) (next : Bool → Units → Bool) : Bool → Units → Bool
  | atStart, [] => next atStart []
  | atStart, u :: s => (p u && matchRun p next false s) || next atStart (u :: s)

def matchTerms : List Term → Bool → Units → Bool
  | [], _, _ => true
  | .start :: terms, atStart, s => atStart && matchTerms terms atStart s
  | .finish :: terms, atStart, s => s.isEmpty && matchTerms terms atStart s
  | .atom a .star :: terms, atStart, s => matchRun a.test (matchTerms terms) atStart s
  | .atom _ .one :: _, _, [] => false
  | .atom a .one :: terms, _, u :: s => a.test u && matchTerms terms false s
  | .atom _ .plus :: _, _, [] => false
  | .atom a .plus :: terms, _, u :: s => a.test u && matchRun a.test (matchTerms terms) false s
  | .atom _ .optional :: terms, atStart, [] => matchTerms terms atStart []
  | .atom a .optional :: terms, atStart, u :: s =>
      (a.test u && matchTerms terms false s) || matchTerms terms atStart (u :: s)

/-- The match may begin at any unit. -/
def testFrom (terms : List Term) : Bool → Units → Bool
  | atStart, [] => matchTerms terms atStart []
  | atStart, u :: s => matchTerms terms atStart (u :: s) || testFrom terms false s

def test (terms : List Term) (s : Units) : Bool := testFrom terms true s

example : (compile (units "^a[^/]*\\.b+$")).map (test · (units "axy.bb")) = some true ∧
    (compile (units "^a[^/]*\\.b+$")).map (test · (units "a/y.bb")) = some false ∧
    (compile (units "b?c")).map (test · (units "abc")) = some true ∧
    compile (units "a++") = none := by decide +kernel

theorem matchRun_iff {p : Fin 65536 → Bool} {next : Bool → Units → Bool} {Q : Units → Prop}
    {s : Units} (h : ∀ atStart rest, rest.Sublist s → (next atStart rest = true ↔ Q rest))
    (atStart : Bool) : matchRun p next atStart s = true ↔
      ∃ run rest, s = run ++ rest ∧ (∀ u ∈ run, p u = true) ∧ Q rest := by
  induction s generalizing atStart with
  | nil =>
      rw [matchRun, h _ _ (List.Sublist.refl _)]
      constructor
      · exact fun hq => ⟨[], [], rfl, by simp, hq⟩
      · rintro ⟨run, rest, heq, -, hq⟩
        obtain ⟨-, rfl⟩ := List.append_eq_nil_iff.1 heq.symm
        exact hq
  | cons u s ih =>
      have hrest := ih (fun b rest hsub => h b rest (hsub.cons u)) false
      rw [matchRun, Bool.or_eq_true, Bool.and_eq_true, hrest, h _ _ (List.Sublist.refl _)]
      constructor
      · rintro (⟨hu, run, rest, rfl, hrun, hq⟩ | hq)
        · exact ⟨u :: run, rest, rfl, List.forall_mem_cons.2 ⟨hu, hrun⟩, hq⟩
        · exact ⟨[], u :: s, rfl, by simp, hq⟩
      · rintro ⟨run, rest, heq, hrun, hq⟩
        cases run with
        | nil => exact Or.inr (heq ▸ hq)
        | cons v run =>
            obtain ⟨rfl, rfl⟩ := List.cons.inj heq
            obtain ⟨hu, hrun⟩ := List.forall_mem_cons.1 hrun
            exact Or.inl ⟨hu, run, rest, rfl, hrun, hq⟩

/-- An expression that begins with `^` is tried at the start alone. -/
theorem test_start (terms : List Term) (s : Units) :
    test (.start :: terms) s = matchTerms terms true s := by
  have hfalse : ∀ t, testFrom (.start :: terms) false t = false := by
    intro t
    induction t with
    | nil => rfl
    | cons u t ih =>
        rw [testFrom, ih]
        rfl
  cases s with
  | nil => rfl
  | cons u s => rw [test, testFrom, hfalse, Bool.or_false, matchTerms, Bool.true_and]

end Match

end OpsBlobs.RegExp
