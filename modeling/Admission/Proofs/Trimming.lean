import Admission.Proofs.Escaping

/-!
# Blanks around a separator, and behind a backslash

Trimming takes blanks off the ends of a text before anything else is read in it, so a separator in
the text keeps apart what is trimmed on its left from what is trimmed on its right, and an escaped
text is trimmed as if it were not escaped: no blank is special.

A backslash before a blank is where this goes wrong.  The blank behind it is trimmed all the same,
or it is kept and the text that it ends up in begins or ends with it.  A text is *tidy* if every
backslash in it stands before a character that is no blank.  Cutting and trimming keep a text tidy
(`Tidy.split`, `Tidy.trim`), and a tidy text without blanks at its ends has none there after it is
unescaped (`Tidy.tight_unescape`).
-/

namespace Admission

variable {sep : Char} {special : List Char} {cs ds : List Char}

/-! ## Trimming -/

theorem trimLeft_cons (c : Char) (cs : List Char) :
    trimLeft (c :: cs) = if isBlank c then trimLeft cs else c :: cs :=
  List.dropWhile_cons

theorem trimRight_concat (cs : List Char) (c : Char) :
    trimRight (cs ++ [c]) = if isBlank c then trimRight cs else cs ++ [c] := by
  unfold trimRight
  rw [List.reverse_append, List.reverse_singleton, List.singleton_append, List.dropWhile_cons]
  split
  · rfl
  · rw [List.reverse_cons, List.reverse_reverse]

theorem trimLeft_append_sep (hsep : isBlank sep = false) (cs ds : List Char) :
    trimLeft (cs ++ sep :: ds) = trimLeft cs ++ sep :: ds := by
  induction cs with
  | nil =>
    rw [List.nil_append, trimLeft_cons, if_neg (by simp [hsep])]
    rfl
  | cons c cs ih =>
    rw [List.cons_append, trimLeft_cons, trimLeft_cons]
    split
    · exact ih
    · rfl

theorem trimRight_append_sep (hsep : isBlank sep = false) (cs ds : List Char) :
    trimRight (cs ++ sep :: ds) = cs ++ sep :: trimRight ds := by
  have hleft := trimLeft_append_sep hsep ds.reverse cs.reverse
  unfold trimLeft at hleft
  unfold trimRight
  rw [List.reverse_append, List.reverse_cons, List.append_assoc, List.singleton_append, hleft,
    List.reverse_append, List.reverse_cons, List.reverse_reverse, List.append_assoc,
    List.singleton_append]

/-- A separator keeps what is trimmed on its left apart from what is trimmed on its right. -/
theorem trim_append_sep (hsep : isBlank sep = false) (cs ds : List Char) :
    trim (cs ++ sep :: ds) = trimLeft cs ++ sep :: trimRight ds := by
  unfold trim
  rw [trimLeft_append_sep hsep, trimRight_append_sep hsep]

/-- What is left of a text when both ends are trimmed begins and ends without a blank. -/
theorem tight_trim (cs : List Char) : Tight (trim cs) := by
  have hleft : ∀ ds : List Char, ∀ c ∈ (trimLeft ds).head?, isBlank c = false := by
    intro ds c hc
    unfold trimLeft at hc
    have := List.head?_dropWhile_not isBlank ds
    rw [Option.mem_def.mp hc] at this
    simpa using this
  have hright : ∀ ds : List Char, ∀ c ∈ (trimRight ds).getLast?, isBlank c = false := by
    intro ds c hc
    unfold trimRight at hc
    rw [List.getLast?_reverse] at hc
    exact hleft ds.reverse c hc
  refine ⟨?_, hright _⟩
  intro c hc
  -- trimming on the right leaves the first character where it was, if it leaves any
  have hprefix : trim cs <+: trimLeft cs := by
    unfold trim trimRight
    rw [← List.reverse_suffix, List.reverse_reverse]
    exact List.dropWhile_suffix _
  refine hleft cs c ?_
  obtain ⟨rest, hrest⟩ := hprefix
  rw [← hrest]
  cases htrim : trim cs with
  | nil =>
    rw [htrim] at hc
    cases hc
  | cons a tail =>
    rw [htrim] at hc
    exact hc

theorem trimLeft_trimLeft (cs : List Char) : trimLeft (trimLeft cs) = trimLeft cs := by
  induction cs with
  | nil => rfl
  | cons c cs ih =>
    rw [trimLeft_cons]
    split
    · exact ih
    · next hc => rw [trimLeft_cons, if_neg hc]

theorem trim_trimLeft (cs : List Char) : trim (trimLeft cs) = trim cs := by
  unfold trim
  rw [trimLeft_trimLeft]

theorem trimRight_cons (c : Char) (cs : List Char) :
    trimRight (c :: cs) =
      if isBlank c = true ∧ trimRight cs = [] then [] else c :: trimRight cs := by
  unfold trimRight
  rw [List.reverse_cons, List.dropWhile_append]
  by_cases hnone : cs.reverse.dropWhile isBlank = []
  · cases hc : isBlank c <;> simp [hnone, hc]
  · simp [hnone]

/-- The two ends can be trimmed in any order. -/
theorem trimLeft_trimRight (cs : List Char) :
    trimLeft (trimRight cs) = trimRight (trimLeft cs) := by
  induction cs with
  | nil => rfl
  | cons c cs ih =>
    rw [trimRight_cons, trimLeft_cons]
    by_cases hc : isBlank c = true
    · rw [if_pos hc, ← ih]
      split
      · next hnone => rw [hnone.2]
      · rw [trimLeft_cons, if_pos hc]
    · rw [if_neg hc, if_neg fun h => hc h.1, trimLeft_cons, if_neg hc, trimRight_cons,
        if_neg fun h => hc h.1]

theorem trimRight_trimRight (cs : List Char) : trimRight (trimRight cs) = trimRight cs := by
  have hleft := trimLeft_trimLeft cs.reverse
  unfold trimLeft at hleft
  unfold trimRight
  rw [List.reverse_reverse, hleft]

theorem trim_trimRight (cs : List Char) : trim (trimRight cs) = trim cs := by
  unfold trim
  rw [trimLeft_trimRight, trimRight_trimRight]

/-! ## Trimming what is escaped -/

theorem trimLeft_escape (h : ∀ c ∈ special, isBlank c = false) (cs : List Char) :
    trimLeft (escape special cs) = escape special (trimLeft cs) := by
  induction cs with
  | nil => rfl
  | cons c cs ih =>
    rw [escape_cons, trimLeft_cons]
    by_cases hc : isBlank c = true
    · have hplain : c ∉ special := by
        intro hspecial
        rw [h c hspecial] at hc
        cases hc
      rw [if_neg hplain, if_pos hc, trimLeft_cons, if_pos hc, ih]
    · rw [if_neg hc, escape_cons]
      split
      · rfl
      · rw [trimLeft_cons, if_neg hc]

theorem trimRight_escape (h : ∀ c ∈ special, isBlank c = false) (cs : List Char) :
    trimRight (escape special cs) = escape special (trimRight cs) := by
  induction cs with
  | nil => rfl
  | cons c cs ih =>
    rw [escape_cons, trimRight_cons]
    by_cases hspecial : c ∈ special
    · -- neither the backslash nor the character behind it is a blank
      have hc : ¬ isBlank c = true := by simp [h c hspecial]
      have hback : ¬ isBlank '\\' = true := by decide
      rw [if_pos hspecial, if_neg fun h => hc h.1, trimRight_cons, if_neg fun h => hback h.1,
        trimRight_cons, if_neg fun h => hc h.1, ih, escape_cons, if_pos hspecial]
    · rw [if_neg hspecial, trimRight_cons]
      simp only [ih, escape_eq_nil]
      split
      · rfl
      · rw [escape_cons, if_neg hspecial]

/-- No special character is a blank, so an escaped text is trimmed as if it were not escaped. -/
theorem trim_escape (h : ∀ c ∈ special, isBlank c = false) (cs : List Char) :
    trim (escape special cs) = escape special (trim cs) := by
  unfold trim
  rw [trimLeft_escape h, trimRight_escape h]

/-! ## Tidy texts -/

/-- Every backslash of a text stands before a character of its own, which is no blank. -/
inductive Tidy : List Char → Prop
  | nil : Tidy []
  | plain {c : Char} {cs : List Char} : c ≠ '\\' → Tidy cs → Tidy (c :: cs)
  | escaped {c : Char} {cs : List Char} : isBlank c = false → Tidy cs → Tidy ('\\' :: c :: cs)

theorem tidy_cons {c : Char} (hc : c ≠ '\\') : Tidy (c :: cs) ↔ Tidy cs := by
  constructor
  · intro h
    cases h with
    | plain _ htail => exact htail
    | escaped _ _ => exact absurd rfl hc
  · exact .plain hc

theorem tidy_escaped {c : Char} : Tidy ('\\' :: c :: cs) ↔ isBlank c = false ∧ Tidy cs := by
  constructor
  · intro h
    cases h with
    | plain hne _ => exact absurd rfl hne
    | escaped hblank htail => exact ⟨hblank, htail⟩
  · rintro ⟨hblank, htail⟩
    exact .escaped hblank htail

theorem not_tidy_backslash : ¬ Tidy ['\\'] := by
  intro h
  cases h with
  | plain hne _ => exact hne rfl

instance Tidy.instDecidable : (cs : List Char) → Decidable (Tidy cs)
  | [] => isTrue .nil
  | [c] =>
    if hc : c = '\\' then isFalse (hc ▸ not_tidy_backslash)
    else isTrue (.plain hc .nil)
  | c :: d :: rest =>
    if hc : c = '\\' then
      have := Tidy.instDecidable rest
      decidable_of_decidable_of_iff (hc ▸ tidy_escaped.symm)
    else
      have := Tidy.instDecidable (d :: rest)
      decidable_of_decidable_of_iff (tidy_cons hc).symm

theorem Tidy.append (hc : Tidy cs) (hd : Tidy ds) : Tidy (cs ++ ds) := by
  induction hc with
  | nil => exact hd
  | plain hne _ ih => exact .plain hne ih
  | escaped hblank _ ih => exact .escaped hblank ih

/-- An escaped text is tidy: what it puts backslashes before is no blank. -/
theorem tidy_escape (h : ∀ c ∈ special, isBlank c = false) (hback : '\\' ∈ special)
    (cs : List Char) : Tidy (escape special cs) := by
  induction cs with
  | nil => exact .nil
  | cons c cs ih =>
    rw [escape_cons]
    split
    · next hspecial => exact .escaped (h c hspecial) ih
    · next hplain =>
      refine .plain ?_ ih
      rintro rfl
      exact hplain hback

theorem Tidy.trimLeft (h : Tidy cs) : Tidy (trimLeft cs) := by
  induction h with
  | nil => exact .nil
  | plain hne htail ih =>
    rw [trimLeft_cons]
    split
    · exact ih
    · exact .plain hne htail
  | escaped hblank htail _ => exact .escaped hblank htail

/-- The last character can be taken off a tidy text if it is a blank: then no backslash is left
waiting for it. -/
theorem Tidy.of_concat {c : Char} (hc : isBlank c = true) (h : Tidy (cs ++ [c])) : Tidy cs := by
  generalize htext : cs ++ [c] = text at h
  induction h generalizing cs with
  | nil => simp at htext
  | @plain a rest hne hrest ih =>
    cases cs with
    | nil => exact .nil
    | cons b tail =>
      obtain ⟨rfl, htail⟩ := List.cons.inj htext
      exact .plain hne (ih htail)
  | @escaped a rest hblank hrest ih =>
    match cs with
    | [] => simp at htext
    | [b] =>
      obtain ⟨-, htail⟩ := List.cons.inj htext
      obtain ⟨rfl, -⟩ := List.cons.inj htail
      rw [hblank] at hc
      cases hc
    | b :: d :: tail =>
      obtain ⟨rfl, hnext⟩ := List.cons.inj htext
      obtain ⟨rfl, htail⟩ := List.cons.inj hnext
      exact .escaped hblank (ih htail)

theorem Tidy.trimRight (h : Tidy cs) : Tidy (trimRight cs) := by
  induction hlength : cs.length generalizing cs with
  | zero =>
    rw [List.length_eq_zero_iff.mp hlength]
    exact .nil
  | succ n ih =>
    rcases List.eq_nil_or_concat cs with rfl | ⟨front, c, rfl⟩
    · exact .nil
    · rw [List.concat_eq_append] at h hlength ⊢
      rw [trimRight_concat]
      split
      · next hc =>
        refine ih (h.of_concat hc) ?_
        simpa using hlength
      · exact h

theorem Tidy.trim (h : Tidy cs) : Tidy (trim cs) := h.trimLeft.trimRight

/-- Every piece of a tidy text is tidy. -/
theorem Tidy.split (h : Tidy cs) :
    Tidy (splitUnescaped sep cs).1 ∧ ∀ piece ∈ (splitUnescaped sep cs).2, Tidy piece := by
  induction h with
  | nil => exact ⟨.nil, by simp [splitUnescaped]⟩
  | @plain c rest hne _ ih =>
    rw [splitUnescaped_cons hne]
    split
    · exact ⟨.nil, List.forall_mem_cons.mpr ih⟩
    · exact ⟨.plain hne ih.1, ih.2⟩
  | @escaped c rest hblank _ ih =>
    rw [splitUnescaped_escaped]
    exact ⟨.escaped hblank ih.1, ih.2⟩

theorem splitOnceUnescaped_cons {c : Char} (hc : c ≠ '\\') (cs : List Char) :
    splitOnceUnescaped sep (c :: cs) =
      if c = sep then some ([], cs)
      else (splitOnceUnescaped sep cs).map fun found => (c :: found.1, found.2) := by
  unfold splitOnceUnescaped
  rw [splitUnescaped_cons hc]
  by_cases hsep : c = sep
  · rw [if_pos hsep, if_pos hsep]
    rfl
  · rw [if_neg hsep, if_neg hsep]
    rcases splitUnescaped sep cs with ⟨piece, _ | ⟨next, others⟩⟩ <;> rfl

theorem splitOnceUnescaped_escaped (c : Char) (cs : List Char) :
    splitOnceUnescaped sep ('\\' :: c :: cs) =
      (splitOnceUnescaped sep cs).map fun found => ('\\' :: c :: found.1, found.2) := by
  unfold splitOnceUnescaped
  rw [splitUnescaped_escaped]
  rcases splitUnescaped sep cs with ⟨piece, _ | ⟨next, others⟩⟩ <;> rfl

/-- Both sides of the first separator in a tidy text are tidy. -/
theorem Tidy.splitOnce (h : Tidy cs) {found : List Char × List Char}
    (hfound : splitOnceUnescaped sep cs = some found) : Tidy found.1 ∧ Tidy found.2 := by
  induction h generalizing found with
  | nil => cases hfound
  | @plain c rest hne hrest ih =>
    rw [splitOnceUnescaped_cons hne] at hfound
    split at hfound
    · obtain rfl := Option.some.inj hfound
      exact ⟨.nil, hrest⟩
    · obtain ⟨inner, hinner, rfl⟩ := Option.map_eq_some_iff.mp hfound
      obtain ⟨hpiece, hafter⟩ := ih hinner
      exact ⟨.plain hne hpiece, hafter⟩
  | @escaped c rest hblank _ ih =>
    rw [splitOnceUnescaped_escaped] at hfound
    obtain ⟨inner, hinner, rfl⟩ := Option.map_eq_some_iff.mp hfound
    obtain ⟨hpiece, hafter⟩ := ih hinner
    exact ⟨.escaped hblank hpiece, hafter⟩

theorem unescape_escaped (c : Char) (cs : List Char) :
    unescape ('\\' :: c :: cs) = c :: unescape cs := by
  rw [unescape, if_pos rfl]

theorem Tidy.unescape_eq_nil (h : Tidy cs) : unescape cs = [] ↔ cs = [] := by
  cases h with
  | nil => exact Iff.rfl
  | plain hne _ => simp [unescape_cons hne]
  | escaped _ _ => simp [unescape_escaped]

/-- The last character of a tidy text is the last one after it is unescaped. -/
theorem Tidy.getLast?_unescape (h : Tidy cs) : (unescape cs).getLast? = cs.getLast? := by
  induction h with
  | nil => rfl
  | @plain c rest hne hrest ih =>
    rw [unescape_cons hne]
    by_cases hnone : rest = []
    · rw [hnone]
      rfl
    · rw [List.getLast?_cons_of_ne_nil hnone,
        List.getLast?_cons_of_ne_nil fun h => hnone (hrest.unescape_eq_nil.mp h), ih]
  | @escaped c rest _ hrest ih =>
    rw [unescape_escaped, List.getLast?_cons_of_ne_nil (List.cons_ne_nil c rest)]
    by_cases hnone : rest = []
    · rw [hnone]
      rfl
    · rw [List.getLast?_cons_of_ne_nil hnone,
        List.getLast?_cons_of_ne_nil fun h => hnone (hrest.unescape_eq_nil.mp h), ih]

/-- Unescaping brings no blank to the ends of a tidy text. -/
theorem Tidy.tight_unescape (h : Tidy cs) (htight : Tight cs) : Tight (unescape cs) := by
  constructor
  · intro c hc
    cases h with
    | nil => cases hc
    | plain hne _ =>
      rw [unescape_cons hne] at hc
      exact htight.head c hc
    | escaped hblank _ =>
      rw [unescape_escaped] at hc
      obtain rfl := Option.some.inj hc
      exact hblank
  · intro c hc
    rw [h.getLast?_unescape] at hc
    exact htight.last c hc

end Admission
