import Mathlib.Data.List.Basic

namespace OpsBlobs.LineJournal

/-- How a record is written as a line: a line without its end is not a record. -/
structure Codec (Record : Type) where
  stringify : Record → List Char
  parse : List Char → Option Record
  newline_notMem : ∀ r, '\n' ∉ stringify r
  stringify_ne_nil : ∀ r, stringify r ≠ []
  parse_stringify : ∀ r, parse (stringify r) = some r
  parse_torn : ∀ r torn, torn <+: stringify r → torn ≠ stringify r → parse torn = none

variable {Record : Type} (C : Codec Record)

/-- Every record on a line of its own. -/
def text (l : List Record) : List Char := l.flatMap (fun r => C.stringify r ++ ['\n'])

def parseLine (line : List Char) : Option Record := if line = [] then none else C.parse line

/-- The records of a journal; a line that is not a record is skipped. -/
def records (journal : List Char) : List Record :=
  (journal.splitOn '\n').filterMap (parseLine C)

/-- The next append starts on a line of its own. -/
def Ended (journal : List Char) : Prop := journal = [] ∨ journal.getLast? = some '\n'

instance (journal : List Char) : Decidable (Ended journal) :=
  inferInstanceAs (Decidable (_ ∨ _))

section Read

variable {parse : List Char → Option Record} {journal more : List Char}

/-- Whatever a reader makes of the lines, when the start of one may read as another record. -/
def recordsOf (parse : List Char → Option Record) (journal : List Char) : List Record :=
  (journal.splitOn '\n').filterMap parse

theorem recordsOf_newline : recordsOf parse (journal ++ '\n' :: more) =
    recordsOf parse journal ++ recordsOf parse more := by
  rw [recordsOf, List.splitOn_append_cons_self, List.filterMap_append]
  rfl

theorem recordsOf_nil (hnil : parse [] = none) : recordsOf parse [] = [] := by
  rw [recordsOf, List.splitOn_nil, List.filterMap_cons_none hnil, List.filterMap_nil]

theorem recordsOf_append (hnil : parse [] = none) (h : Ended journal) :
    recordsOf parse (journal ++ more) = recordsOf parse journal ++ recordsOf parse more := by
  rcases h with rfl | h
  · rw [recordsOf_nil hnil]
    rfl
  · obtain ⟨start, rfl⟩ := List.getLast?_eq_some_iff.1 h
    rw [List.append_assoc, List.singleton_append, recordsOf_newline, recordsOf_newline,
      recordsOf_nil hnil, List.append_nil]

theorem recordsOf_lines {line : Record → List Char} {l : List Record} (hnil : parse [] = none)
    (hline : ∀ r ∈ l, '\n' ∉ line r ∧ parse (line r) = some r) :
    recordsOf parse (l.flatMap fun r => line r ++ ['\n']) = l := by
  induction l with
  | nil => exact recordsOf_nil hnil
  | cons r l ih =>
      obtain ⟨hnew, hparse⟩ := hline r List.mem_cons_self
      have hr : recordsOf parse (line r) = [r] := by
        rw [recordsOf, List.splitOn_eq_singleton hnew, List.filterMap_cons_some hparse,
          List.filterMap_nil]
      rw [List.flatMap_cons, List.append_assoc, List.singleton_append, recordsOf_newline, hr,
        ih fun r' hr' => hline r' (List.mem_cons_of_mem r hr')]
      rfl

theorem ended_lines {line : Record → List Char} (l : List Record) :
    Ended (l.flatMap fun r => line r ++ ['\n']) := by
  rcases List.eq_nil_or_concat l with rfl | ⟨l, r, rfl⟩
  · exact Or.inl rfl
  · apply Or.inr
    simp

end Read

variable {C} {journal more : List Char} {l : List Record} {r : Record}

@[simp] theorem records_nil : records C [] = [] := rfl

theorem text_cons : text C (r :: l) = C.stringify r ++ '\n' :: text C l := by
  simp [text]

theorem ended_text (l : List Record) : Ended (text C l) := ended_lines l

theorem ended_append (h : Ended more) (hj : Ended journal) : Ended (journal ++ more) := by
  rcases h with rfl | h
  · rwa [List.append_nil]
  · apply Or.inr
    rw [List.getLast?_append, h]
    rfl

theorem records_newline :
    records C (journal ++ '\n' :: more) = records C journal ++ records C more := recordsOf_newline

theorem records_append (h : Ended journal) :
    records C (journal ++ more) = records C journal ++ records C more :=
  recordsOf_append rfl h

theorem records_line {line : List Char} (h : '\n' ∉ line) :
    records C line = (parseLine C line).toList := by
  rw [records, List.splitOn_eq_singleton h]
  cases hl : parseLine C line with
  | none => simp [hl]
  | some r => simp [hl]

theorem records_stringify (r : Record) : records C (C.stringify r) = [r] := by
  rw [records_line (C.newline_notMem r), parseLine, if_neg (C.stringify_ne_nil r),
    C.parse_stringify]
  rfl

@[simp] theorem records_text (l : List Record) : records C (text C l) = l := by
  induction l with
  | nil => rfl
  | cons r l ih =>
      rw [text_cons, records_newline, records_stringify, ih]
      rfl

theorem records_start {torn : List Char} (h : torn <+: C.stringify r) :
    records C torn = [] ∨ records C torn = [r] := by
  by_cases hfull : torn = C.stringify r
  · exact Or.inr (hfull ▸ records_stringify r)
  · have hline : '\n' ∉ torn := fun hmem => C.newline_notMem r (h.subset hmem)
    rw [records_line hline, parseLine, C.parse_torn r torn h hfull, ite_self]
    exact Or.inl rfl

/-- What a torn append leaves: some of its lines, and the start of the next one. -/
theorem torn_split (h : more <+: text C l) : ∃ whole torn, more = text C whole ++ torn ∧
    (torn = [] ∧ whole <+: l ∨ ∃ r, torn <+: C.stringify r ∧ whole ++ [r] <+: l) := by
  induction l generalizing more with
  | nil =>
      obtain rfl := List.prefix_nil.1 h
      exact ⟨[], [], rfl, Or.inl ⟨rfl, List.prefix_refl _⟩⟩
  | cons r l ih =>
      rw [text_cons] at h
      by_cases hin : more <+: C.stringify r
      · exact ⟨[], more, rfl, Or.inr ⟨r, hin, List.prefix_append [r] l⟩⟩
      · rcases List.prefix_or_prefix_of_prefix h (List.prefix_append _ _) with hin' | hin'
        · exact absurd hin' hin
        · obtain ⟨tail, rfl⟩ := hin'
          rw [List.prefix_append_right_inj] at h
          cases tail with
          | nil =>
              rw [List.append_nil] at hin
              exact absurd (List.prefix_refl _) hin
          | cons c tail =>
              obtain ⟨rfl, htail⟩ := List.cons_prefix_cons.1 h
              obtain ⟨whole, torn, rfl, htorn⟩ := ih htail
              refine ⟨r :: whole, torn, ?_, ?_⟩
              · rw [text_cons, List.append_assoc, List.cons_append]
              · rcases htorn with ⟨hnil, hwhole⟩ | ⟨next, hnext, hwhole⟩
                · exact Or.inl ⟨hnil, List.cons_prefix_cons.2 ⟨rfl, hwhole⟩⟩
                · exact Or.inr ⟨next, hnext, List.cons_prefix_cons.2 ⟨rfl, hwhole⟩⟩

/-- A torn append leaves the first of its records. -/
theorem records_torn (h : more <+: text C l) : records C more <+: l := by
  obtain ⟨whole, torn, rfl, htorn⟩ := torn_split h
  rw [records_append (ended_text whole), records_text]
  rcases htorn with ⟨rfl, hwhole⟩ | ⟨r, hr, hwhole⟩
  · rwa [records_nil, List.append_nil]
  · rcases records_start hr with hnone | hone
    · rw [hnone, List.append_nil]
      exact (List.prefix_append whole [r]).trans hwhole
    · rwa [hone]

section Lines

variable (all : List Record) (line : Record → List Char)

/-- Records that are told apart by lines of one length. -/
def Codec.ofLines (n : Nat) (mem_all : ∀ r, r ∈ all) (length_line : ∀ r, (line r).length = n + 1)
    (line_injective : ∀ r r', line r = line r' → r = r') (newline_notMem : ∀ r, '\n' ∉ line r) :
    Codec Record where
  stringify := line
  parse text := all.find? (fun r => line r = text)
  newline_notMem := newline_notMem
  stringify_ne_nil r := List.ne_nil_of_length_eq_add_one (length_line r)
  parse_stringify r := by
    cases h : all.find? (fun r' => line r' = line r) with
    | none =>
        have hr := List.find?_eq_none.1 h r (mem_all r)
        exact absurd (decide_eq_true rfl) hr
    | some r' =>
        have hr' := List.find?_some (p := fun r' => decide (line r' = line r)) h
        rw [line_injective r' r (of_decide_eq_true hr')]
  parse_torn r torn htorn hne := by
    apply List.find?_eq_none.2
    intro r' _ hr'
    have hlen : torn.length = (line r).length := by
      rw [← of_decide_eq_true hr', length_line, length_line]
    exact hne (htorn.eq_of_length hlen)

end Lines

end OpsBlobs.LineJournal
