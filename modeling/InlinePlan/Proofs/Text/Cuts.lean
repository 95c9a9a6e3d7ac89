import InlinePlan.Text.Blank

set_option autoImplicit false

/-! # Cutting lines

A cut at a character is the one split in front of its first occurrence. Trimming gives a text without
blanks at its ends and keeps such a text, and the words of a text are free of blanks and come back from
a text that has them with blanks in between. -/

namespace InlinePlan.Text

/-! ## Cuts -/

theorem cut?_append {sep : Char} {l r : List Char} (h : sep ∉ l) :
    cut? sep (l ++ sep :: r) = some (l, r) := by
  induction l with
  | nil => simp [cut?]
  | cons c l ih =>
    obtain ⟨hc, hl⟩ := not_or.1 (mt List.mem_cons.2 h)
    rw [List.cons_append, cut?, if_neg (Ne.symm hc), ih hl]
    rfl

theorem notMem_of_cut? {sep : Char} {cs l r : List Char} (h : cut? sep cs = some (l, r)) :
    sep ∉ l := by
  induction cs generalizing l r with
  | nil => cases h
  | cons c cs ih =>
    rw [cut?] at h
    split at h
    case isTrue =>
      cases h
      exact List.not_mem_nil
    case isFalse hc =>
      obtain ⟨⟨l', r'⟩, hcut, heq⟩ := Option.map_eq_some_iff.1 h
      cases heq
      exact fun hmem => (List.mem_cons.1 hmem).elim (Ne.symm hc) (ih hcut)

theorem cut?_eq_some_iff {sep : Char} {cs l r : List Char} :
    cut? sep cs = some (l, r) ↔ cs = l ++ sep :: r ∧ sep ∉ l :=
  ⟨fun h => ⟨cut?_eq_some h, notMem_of_cut? h⟩, fun ⟨hcs, hsep⟩ => hcs ▸ cut?_append hsep⟩

theorem cut?_eq_none_iff {sep : Char} {cs : List Char} : cut? sep cs = none ↔ sep ∉ cs := by
  constructor
  · intro h hmem
    obtain ⟨l, r, hcs, hsep⟩ := List.eq_append_cons_of_mem hmem
    rw [hcs, cut?_append hsep] at h
    cases h
  · intro h
    cases hcut : cut? sep cs with
    | none => rfl
    | some lr => exact absurd (by simp [cut?_eq_some hcut]) h

theorem cutLast?_eq_some {sep : Char} {cs l r : List Char} (h : cutLast? sep cs = some (l, r)) :
    cs = l ++ sep :: r ∧ sep ∉ r := by
  obtain ⟨⟨r', l'⟩, hcut, heq⟩ := Option.map_eq_some_iff.1 h
  cases heq
  obtain ⟨hcs, hsep⟩ := cut?_eq_some_iff.1 hcut
  refine ⟨?_, by simpa using hsep⟩
  simpa using congrArg List.reverse hcs

/-! ## Trimming -/

/-- Neither begins nor ends with a blank. -/
structure Trimmed (cs : List Char) : Prop where
  head : ∀ c ∈ cs.head?, isBlank c = false
  last : ∀ c ∈ cs.getLast?, isBlank c = false

theorem trimmed_nil : Trimmed [] := ⟨nofun, nofun⟩

theorem trimmed_trim (cs : List Char) : Trimmed (trim cs) := by
  have hhead : ∀ (ds : List Char) (c : Char), (ds.dropWhile isBlank).head? = some c → isBlank c = false :=
    fun ds c hc => by
      have hdrop := List.head?_dropWhile_not isBlank ds
      rwa [hc] at hdrop
  unfold trim trimRight
  constructor
  · intro c hc
    -- What is left after the cut at the end begins as the text did before it.
    generalize hds : cs.dropWhile isBlank = ds at hc
    obtain ⟨blanks, hsuffix⟩ := List.dropWhile_suffix isBlank (l := ds.reverse)
    have hprefix := congrArg List.reverse hsuffix
    rw [List.reverse_append, List.reverse_reverse] at hprefix
    refine hhead cs c (hds ▸ ?_)
    rw [← hprefix, List.head?_append, hc]
    rfl
  · intro c hc
    rw [List.getLast?_reverse] at hc
    exact hhead _ c hc

theorem Trimmed.trim_eq {cs : List Char} (h : Trimmed cs) : trim cs = cs := by
  have hkeep : ∀ ds : List Char, (∀ c ∈ ds.head?, isBlank c = false) → ds.dropWhile isBlank = ds := by
    intro ds hds
    cases ds with
    | nil => rfl
    | cons c ds => rw [List.dropWhile_cons, hds c rfl]; rfl
  rw [trim, hkeep cs h.head, trimRight, hkeep _ (by simpa using h.last), List.reverse_reverse]

theorem trim_cons_blank {c : Char} (h : isBlank c = true) (cs : List Char) :
    trim (c :: cs) = trim cs := by
  rw [trim, List.dropWhile_cons, if_pos h]
  rfl

/-! ## Words -/

/-- A word is not empty and has no blanks. -/
structure Word (w : List Char) : Prop where
  ne_nil : w ≠ []
  solid : ∀ c ∈ w, isBlank c = false

theorem Word.trimmed {w : List Char} (h : Word w) : Trimmed w :=
  ⟨fun c hc => h.solid c (List.mem_of_mem_head? hc), fun c hc => h.solid c (List.mem_of_mem_getLast? hc)⟩

/-- What begins with a word and ends without a blank is trimmed. -/
theorem Word.trimmed_append {v w : List Char} (hv : Word v) (hw : Trimmed w) (hne : w ≠ [])
    (cs : List Char) : Trimmed (v ++ cs ++ w) := by
  constructor
  · intro c hc
    rw [List.append_assoc, List.head?_append, List.head?_eq_some_head hv.ne_nil] at hc
    exact hv.solid c (Option.some.inj hc ▸ List.head_mem hv.ne_nil)
  · intro c hc
    rw [List.getLast?_append, List.getLast?_eq_some_getLast hne] at hc
    exact hw.last c (List.getLast?_eq_some_getLast hne ▸ hc)

theorem wordsFrom_append {w : List Char} (h : ∀ c ∈ w, isBlank c = false) (cs acc : List Char) :
    wordsFrom (w ++ cs) acc = wordsFrom cs (w.reverse ++ acc) := by
  induction w generalizing acc with
  | nil => rfl
  | cons c w ih =>
    obtain ⟨hc, hw⟩ := List.forall_mem_cons.1 h
    have hstep : wordsFrom (c :: (w ++ cs)) acc = wordsFrom (w ++ cs) (c :: acc) := by
      simp [wordsFrom, hc]
    rw [List.cons_append, hstep, ih hw, List.reverse_cons, List.append_assoc]
    rfl

theorem Word.words_eq {w : List Char} (h : Word w) : words w = [w] := by
  have happend := wordsFrom_append h.solid [] []
  rw [List.append_nil, List.append_nil] at happend
  cases hrev : w.reverse with
  | nil => exact absurd (List.reverse_eq_nil_iff.1 hrev) h.ne_nil
  | cons c cs =>
    rw [words, happend, hrev, wordsFrom, ← hrev, List.reverse_reverse]
    exact nofun

theorem Word.words_append {w : List Char} (h : Word w) {c : Char} (hc : isBlank c = true)
    (cs : List Char) : words (w ++ c :: cs) = w :: words cs := by
  rw [words, wordsFrom_append h.solid, List.append_nil]
  cases hrev : w.reverse with
  | nil => exact absurd (List.reverse_eq_nil_iff.1 hrev) h.ne_nil
  | cons d ds => simp [wordsFrom, hc, words, ← hrev]

theorem word_of_mem_wordsFrom {cs acc w : List Char} (hacc : ∀ c ∈ acc, isBlank c = false)
    (h : w ∈ wordsFrom cs acc) : Word w := by
  have hnil : ∀ c ∈ ([] : List Char), isBlank c = false := fun _ hmem => absurd hmem List.not_mem_nil
  -- The accumulator never holds a blank, and a word is cut off only where it is not empty.
  fun_induction wordsFrom cs acc with
  | case1 => cases h
  | case2 acc hne =>
    rw [List.mem_singleton.1 h]
    exact ⟨fun heq => hne (List.reverse_eq_nil_iff.1 heq), fun c hc => hacc c (List.mem_reverse.1 hc)⟩
  | case3 c cs hc ih => exact ih hnil h
  | case4 c cs hc d ds ih =>
    rcases List.mem_cons.1 h with rfl | htail
    · exact ⟨by simp, fun c hc => hacc c (List.mem_reverse.1 hc)⟩
    · exact ih hnil htail
  | case5 c cs acc hc ih =>
    exact ih (List.forall_mem_cons.2 ⟨Bool.eq_false_iff.2 hc, hacc⟩) h

theorem word_of_mem_words {w cs : List Char} (h : w ∈ words cs) : Word w :=
  word_of_mem_wordsFrom (fun _ hmem => absurd hmem List.not_mem_nil) h

end InlinePlan.Text
