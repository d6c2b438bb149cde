import OpsBlobs.Diff3

namespace OpsBlobs.JoinedLines

open Diff3

/-- A line as the splitter leaves it. -/
def OneLine (line : Line) : Prop := ∀ c ∈ line, c ≠ '\n' ∧ c ≠ '\r'

instance (line : Line) : Decidable (OneLine line) := List.decidableBAll _ line

theorem mem_splitLines {t : Text} {line : Line} (h : line ∈ splitLines t) {c : Char}
    (hc : c ∈ line) : c ∈ t ∧ c ≠ '\n' := by
  induction t generalizing line with
  | nil =>
      obtain rfl := List.mem_singleton.1 h
      exact absurd hc List.not_mem_nil
  | cons d t ih =>
      unfold splitLines at h
      split at h
      · rcases List.mem_cons.1 h with rfl | h
        · exact absurd hc List.not_mem_nil
        · exact ⟨List.mem_cons_of_mem _ (ih h hc).1, (ih h hc).2⟩
      · rename_i hd
        cases hs : splitLines t with
        | nil => exact absurd hs (splitLines_ne_nil t)
        | cons first rest =>
            rw [hs] at h ih
            rcases List.mem_cons.1 h with rfl | h
            · rcases List.mem_cons.1 hc with rfl | hc
              · exact ⟨List.mem_cons_self, hd⟩
              · have := ih List.mem_cons_self hc
                exact ⟨List.mem_cons_of_mem _ this.1, this.2⟩
            · have := ih (List.mem_cons_of_mem _ h) hc
              exact ⟨List.mem_cons_of_mem _ this.1, this.2⟩

theorem oneLine_normalizeLines {t : Text} {line : Line} (h : line ∈ normalizeLines t) :
    OneLine line := by
  intro c hc
  obtain ⟨hmem, hne⟩ := mem_splitLines h hc
  refine ⟨hne, ?_⟩
  obtain ⟨d, -, rfl⟩ := List.mem_map.1 hmem
  split
  · decide
  · assumption

theorem splitLines_line {line : Line} (h : ∀ c ∈ line, c ≠ '\n') : splitLines line = [line] := by
  induction line with
  | nil => rfl
  | cons c line ih =>
      obtain ⟨hc, hline⟩ := List.forall_mem_cons.1 h
      simp [splitLines, hc, ih hline]

theorem splitLines_append {line : Line} (h : ∀ c ∈ line, c ≠ '\n') (t : Text) :
    splitLines (line ++ '\n' :: t) = line :: splitLines t := by
  induction line with
  | nil => simp [splitLines]
  | cons c line ih =>
      obtain ⟨hc, hline⟩ := List.forall_mem_cons.1 h
      simp [splitLines, hc, ih hline]

theorem splitLines_joinLines {ls : List Line} (hne : ls ≠ [])
    (h : ∀ line ∈ ls, ∀ c ∈ line, c ≠ '\n') : splitLines (joinLines ls) = ls := by
  induction ls with
  | nil => exact absurd rfl hne
  | cons line rest ih =>
      obtain ⟨hline, hrest⟩ := List.forall_mem_cons.1 h
      by_cases hr : rest = []
      · rw [hr]
        exact splitLines_line hline
      · rw [joinLines_cons hr, splitLines_append hline, ih hr hrest]

theorem mem_joinLines {ls : List Line} {c : Char} (h : c ∈ joinLines ls) :
    c = '\n' ∨ ∃ line ∈ ls, c ∈ line := by
  induction ls with
  | nil => exact absurd h List.not_mem_nil
  | cons line rest ih =>
      by_cases hr : rest = []
      · subst hr
        exact Or.inr ⟨line, List.mem_cons_self, h⟩
      · rw [joinLines_cons hr, List.mem_append, List.mem_cons] at h
        rcases h with h | rfl | h
        · exact Or.inr ⟨line, List.mem_cons_self, h⟩
        · exact Or.inl rfl
        · exact (ih h).imp_right fun ⟨l, hl, hc⟩ => ⟨l, List.mem_cons_of_mem _ hl, hc⟩

theorem replaceCrLf_of_no_cr {t : Text} (h : ∀ c ∈ t, c ≠ '\r') : replaceCrLf t = t := by
  induction t with
  | nil => rfl
  | cons c t ih =>
      obtain ⟨hc, ht⟩ := List.forall_mem_cons.1 h
      rw [replaceCrLf, ih ht]
      exact fun _ hc' _ => hc hc'

theorem replaceCr_of_no_cr {t : Text} (h : ∀ c ∈ t, c ≠ '\r') : replaceCr t = t := by
  refine (List.map_congr_left fun c hc => ?_).trans (List.map_id t)
  exact if_neg (h c hc)

/-- The lines of a joined text are the lines it was joined from. -/
theorem normalizeLines_joinLines {ls : List Line} (hne : ls ≠ []) (h : ∀ line ∈ ls, OneLine line) :
    normalizeLines (joinLines ls) = ls := by
  have hcr : ∀ c ∈ joinLines ls, c ≠ '\r' := by
    intro c hc
    rcases mem_joinLines hc with rfl | ⟨line, hl, hc⟩
    · decide
    · exact (h line hl c hc).2
  rw [normalizeLines, replaceCrLf_of_no_cr hcr, replaceCr_of_no_cr hcr]
  exact splitLines_joinLines hne fun line hl c hc => (h line hl c hc).1

theorem normalizeLines_ne_nil (t : Text) : normalizeLines t ≠ [] := splitLines_ne_nil _

/-- Joining after splitting changes no text that was joined before. -/
theorem joinLines_normalizeLines {ls : List Line} (h : ∀ line ∈ ls, OneLine line) :
    joinLines (normalizeLines (joinLines ls)) = joinLines ls := by
  by_cases hne : ls = []
  · rw [hne]
    rfl
  · rw [normalizeLines_joinLines hne h]

end OpsBlobs.JoinedLines
