import Admission.Text.Blank
import Admission.Text.Escaped

/-!
# Escapes shield separators

A text is *shielded* from a separator if a backslash precedes every separator in it and no backslash
at its end is left waiting for a character.  Such a text stays in one piece wherever it is cut
(`splitUnescaped_append`), also with other text behind it, so shielded texts that are joined by the
separator come apart as they were joined (`piecesUnescaped_intercalate`).  An escaped text is
shielded from every special character at once (`shielded_escape`), which is what lets one escaping
serve three splits inside each other.

* `unescape_escape` — unescaping undoes escaping.
* `trim_of_tight` — trimming changes nothing where there is no blank at either end, and escaping
  puts none there (`Tight.escape`).
-/

namespace Admission

variable {sep : Char} {special : List Char} {cs ds : List Char}

/-! ## Splitting -/

/-- A backslash precedes every separator in a text, and every backslash has its character. -/
inductive Shielded (sep : Char) : List Char → Prop
  | nil : Shielded sep []
  | plain {c : Char} {cs : List Char} :
    c ≠ '\\' → c ≠ sep → Shielded sep cs → Shielded sep (c :: cs)
  | escaped {c : Char} {cs : List Char} : Shielded sep cs → Shielded sep ('\\' :: c :: cs)

theorem Shielded.append (hc : Shielded sep cs) (hd : Shielded sep ds) :
    Shielded sep (cs ++ ds) := by
  induction hc with
  | nil => exact hd
  | plain hne hsep _ ih => exact .plain hne hsep ih
  | escaped _ ih => exact .escaped ih

theorem splitUnescaped_cons {c : Char} (hc : c ≠ '\\') (cs : List Char) :
    splitUnescaped sep (c :: cs) =
      if c = sep then ([], piecesUnescaped sep cs)
      else (c :: (splitUnescaped sep cs).1, (splitUnescaped sep cs).2) := by
  cases cs with
  | nil =>
    unfold splitUnescaped
    by_cases h : c = sep
    · rw [if_pos ⟨h, hc⟩, if_pos h]
      rfl
    · rw [if_neg fun hs => h hs.1, if_neg h]
  | cons d rest =>
    rw [splitUnescaped, if_neg hc]
    rfl

theorem splitUnescaped_escaped (c : Char) (cs : List Char) :
    splitUnescaped sep ('\\' :: c :: cs) =
      ('\\' :: c :: (splitUnescaped sep cs).1, (splitUnescaped sep cs).2) := by
  rw [splitUnescaped, if_pos rfl]

/-- A shielded text goes to the first piece as it is, whatever stands behind it. -/
theorem splitUnescaped_append (h : Shielded sep cs) (rest : List Char) :
    splitUnescaped sep (cs ++ rest) =
      (cs ++ (splitUnescaped sep rest).1, (splitUnescaped sep rest).2) := by
  induction h with
  | nil => rfl
  | plain hne hsep _ ih =>
    rw [List.cons_append, splitUnescaped_cons hne, if_neg hsep, ih]
    rfl
  | escaped _ ih =>
    rw [List.cons_append, List.cons_append, splitUnescaped_escaped, ih]
    rfl

theorem piecesUnescaped_of_shielded (h : Shielded sep cs) : piecesUnescaped sep cs = [cs] := by
  have hsplit := splitUnescaped_append h []
  rw [List.append_nil] at hsplit
  unfold piecesUnescaped
  rw [hsplit]
  show [cs ++ []] = [cs]
  rw [List.append_nil]

/-- A separator behind a shielded text ends the first piece. -/
theorem splitUnescaped_append_sep (hsep : sep ≠ '\\') (h : Shielded sep cs) (rest : List Char) :
    splitUnescaped sep (cs ++ sep :: rest) = (cs, piecesUnescaped sep rest) := by
  rw [splitUnescaped_append h, splitUnescaped_cons hsep, if_pos rfl]
  show (cs ++ [], _) = _
  rw [List.append_nil]

theorem splitOnceUnescaped_append_sep (hsep : sep ≠ '\\') (h : Shielded sep cs)
    (rest : List Char) : splitOnceUnescaped sep (cs ++ sep :: rest) = some (cs, rest) := by
  have hdrop : (cs ++ sep :: rest).drop (cs.length + 1) = rest := by
    rw [List.drop_append, List.drop_of_length_le (Nat.le_succ _), Nat.add_sub_cancel_left]
    rfl
  unfold splitOnceUnescaped
  rw [splitUnescaped_append_sep hsep h]
  exact congrArg (fun after => some (cs, after)) hdrop

theorem intercalate_cons (sep : Char) (text next : List Char) (others : List (List Char)) :
    [sep].intercalate (text :: next :: others) =
      text ++ sep :: [sep].intercalate (next :: others) := by
  rw [List.intercalate_cons_cons]
  exact List.append_assoc text [sep] _

/-- Shielded texts come apart as they were joined. -/
theorem piecesUnescaped_intercalate (hsep : sep ≠ '\\') {texts : List (List Char)}
    (hne : texts ≠ []) (h : ∀ text ∈ texts, Shielded sep text) :
    piecesUnescaped sep ([sep].intercalate texts) = texts := by
  induction texts with
  | nil => exact absurd rfl hne
  | cons text rest ih =>
    obtain ⟨htext, hrest⟩ := List.forall_mem_cons.mp h
    cases rest with
    | nil =>
      rw [List.intercalate_singleton]
      exact piecesUnescaped_of_shielded htext
    | cons next others =>
      have hnext := ih (List.cons_ne_nil _ _) hrest
      unfold piecesUnescaped at hnext ⊢
      rw [intercalate_cons, splitUnescaped_append_sep hsep htext]
      exact congrArg (text :: ·) hnext

/-! ## Escaping -/

theorem escape_cons (special : List Char) (c : Char) (cs : List Char) :
    escape special (c :: cs) =
      if c ∈ special then '\\' :: c :: escape special cs else c :: escape special cs := by
  unfold escape
  rw [List.flatMap_cons]
  split <;> rfl

/-- An escaped text is shielded from every special character. -/
theorem shielded_escape (hback : '\\' ∈ special) (hsep : sep ∈ special) (cs : List Char) :
    Shielded sep (escape special cs) := by
  induction cs with
  | nil => exact .nil
  | cons c cs ih =>
    rw [escape_cons]
    split
    · exact .escaped ih
    · next hplain =>
      refine .plain ?_ ?_ ih
      · rintro rfl
        exact hplain hback
      · rintro rfl
        exact hplain hsep

theorem unescape_cons {c : Char} (hc : c ≠ '\\') (cs : List Char) :
    unescape (c :: cs) = c :: unescape cs := by
  cases cs with
  | nil => exact if_neg hc
  | cons d rest =>
    rw [unescape, if_neg hc]

/-- Unescaping undoes escaping. -/
theorem unescape_escape (hback : '\\' ∈ special) (cs : List Char) :
    unescape (escape special cs) = cs := by
  induction cs with
  | nil => rfl
  | cons c cs ih =>
    rw [escape_cons]
    split
    · show (if '\\' = '\\' then c :: unescape (escape special cs) else _) = _
      rw [if_pos rfl, ih]
    · next hplain =>
      rw [unescape_cons (by rintro rfl; exact hplain hback), ih]

theorem escape_inj (hback : '\\' ∈ special) : escape special cs = escape special ds ↔ cs = ds := by
  constructor
  · intro h
    rw [← unescape_escape hback cs, h, unescape_escape hback]
  · intro h
    rw [h]

theorem escape_eq_nil : escape special cs = [] ↔ cs = [] := by
  cases cs with
  | nil => exact Iff.rfl
  | cons c cs =>
    rw [escape_cons]
    split <;> simp

/-! ## Blanks at the ends -/

/-- A text neither begins nor ends with a blank. -/
structure Tight (cs : List Char) : Prop where
  head : ∀ c ∈ cs.head?, isBlank c = false
  last : ∀ c ∈ cs.getLast?, isBlank c = false

theorem tight_iff : Tight cs ↔
    cs.head?.all (!isBlank ·) = true ∧ cs.getLast?.all (!isBlank ·) = true := by
  simp only [Option.all_eq_true, Bool.not_eq_true']
  exact ⟨fun h => ⟨h.head, h.last⟩, fun h => ⟨h.1, h.2⟩⟩

instance (cs : List Char) : Decidable (Tight cs) := decidable_of_decidable_of_iff tight_iff.symm

theorem trim_of_tight (h : Tight cs) : trim cs = cs := by
  have hleft : trimLeft cs = cs := by
    cases cs with
    | nil => rfl
    | cons c rest =>
      unfold trimLeft
      rw [List.dropWhile_cons, h.head c rfl]
      rfl
  have hright : trimRight cs = cs := by
    unfold trimRight
    cases hrev : cs.reverse with
    | nil =>
      rw [List.reverse_eq_nil_iff] at hrev
      rw [hrev]
      rfl
    | cons c rest =>
      have hlast : cs.getLast? = some c := by
        rw [← List.head?_reverse, hrev]
        rfl
      rw [List.dropWhile_cons, h.last c hlast, ← hrev]
      exact List.reverse_reverse cs
  unfold trim
  rw [hleft, hright]

theorem tight_nil : Tight [] := ⟨by simp, by simp⟩

/-- Two tight texts around a separator make a tight one. -/
theorem Tight.append_sep (hc : Tight cs) (hsep : isBlank sep = false) (hd : Tight ds) :
    Tight (cs ++ sep :: ds) := by
  constructor
  · intro c h
    cases cs with
    | nil =>
      obtain rfl := Option.some.inj h
      exact hsep
    | cons a rest => exact hc.head c h
  · intro c h
    rw [List.getLast?_append, List.getLast?_cons] at h
    obtain rfl := Option.some.inj h
    cases hlast : ds.getLast? with
    | none => exact hsep
    | some d => exact hd.last d hlast

theorem Tight.intercalate (hsep : isBlank sep = false) {texts : List (List Char)}
    (h : ∀ text ∈ texts, Tight text) : Tight ([sep].intercalate texts) := by
  induction texts with
  | nil => exact tight_nil
  | cons text rest ih =>
    obtain ⟨htext, hrest⟩ := List.forall_mem_cons.mp h
    cases rest with
    | nil =>
      rw [List.intercalate_singleton]
      exact htext
    | cons next others =>
      rw [intercalate_cons]
      exact htext.append_sep hsep (ih hrest)

/-- Escaping puts no blank at either end. -/
theorem Tight.escape (h : Tight cs) (special : List Char) : Tight (escape special cs) := by
  constructor
  · intro c hc
    cases cs with
    | nil => cases hc
    | cons a rest =>
      rw [escape_cons] at hc
      split at hc
      · obtain rfl := Option.some.inj hc
        rfl
      · exact h.head c hc
  · intro c hc
    -- the last character stays the last, with or without a backslash before it
    rcases List.eq_nil_or_concat cs with rfl | ⟨front, a, rfl⟩
    · cases hc
    · rw [List.concat_eq_append] at h hc
      have hlast : (Admission.escape special (front ++ [a])).getLast? = some a := by
        unfold Admission.escape
        rw [List.flatMap_append, List.getLast?_append, List.flatMap_singleton]
        split <;> rfl
      rw [hlast] at hc
      exact h.last c (by rw [List.getLast?_concat]; exact hc)

end Admission
