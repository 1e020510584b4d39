import Admission.Proofs.Escaping
import Admission.Text.Slice

/-!
# Cuts at separators that are not escaped

Whether a character is escaped is decided by all that stands before it: a backslash escapes the next
character unless it is escaped itself (`escapesNext`).  A text *has a separator* if one stands in it
that is not escaped.

* `exists_shielded_front`, `splitUnescaped_of_not_hasSeparator` — a text with a separator is cut at
  the first one, which no backslash reaches over, and any other text is one piece.
* `piecesUnescaped_spec` — so the pieces joined are the text, none has a separator, and none but the
  last ends in a backslash that waits for a character.
* `slicesUnescaped_eq`, `sliceOnceUnescaped_eq` — cutting a text in place gives the same pieces, for
  each of its slices begins and ends between characters.
* `cuts_at_separators` — all of this for every text and every separator.
-/

namespace Admission

variable {sep : Char} {cs front rest piece : List Char}

/-! ## Separators -/

/-- Whether a character would be escaped behind a text. -/
def escapesNext (cs : List Char) : Bool := cs.foldl (fun escaped c => !escaped && c = '\\') false

/-- A separator that is not escaped stands in a text. -/
def HasSeparator (sep : Char) (cs : List Char) : Prop :=
  ∃ front rest, cs = front ++ sep :: rest ∧ escapesNext front = false

theorem escapesNext_cons {c : Char} (hc : c ≠ '\\') (cs : List Char) :
    escapesNext (c :: cs) = escapesNext cs := by
  unfold escapesNext
  rw [List.foldl_cons, decide_eq_false hc, Bool.and_false]

theorem escapesNext_escaped (c : Char) (cs : List Char) :
    escapesNext ('\\' :: c :: cs) = escapesNext cs := rfl

theorem Shielded.escapesNext_eq_false (h : Shielded sep cs) : escapesNext cs = false := by
  induction h with
  | nil => rfl
  | plain hne _ _ ih => rw [escapesNext_cons hne, ih]
  | escaped _ ih => rw [escapesNext_escaped, ih]

theorem not_hasSeparator_nil : ¬ HasSeparator sep [] := by
  rintro ⟨front, rest, htext, -⟩
  simp at htext

theorem hasSeparator_cons {c : Char} (hc : c ≠ '\\') :
    HasSeparator sep (c :: cs) ↔ c = sep ∨ HasSeparator sep cs := by
  constructor
  · rintro ⟨front, rest, htext, hfront⟩
    cases front with
    | nil => exact .inl (List.cons.inj htext).1
    | cons a front =>
      obtain ⟨rfl, htail⟩ := List.cons.inj htext
      rw [escapesNext_cons hc] at hfront
      exact .inr ⟨front, rest, htail, hfront⟩
  · rintro (rfl | ⟨front, rest, rfl, hfront⟩)
    · exact ⟨[], cs, rfl, rfl⟩
    · exact ⟨c :: front, rest, rfl, by rw [escapesNext_cons hc, hfront]⟩

theorem not_hasSeparator_backslash (hsep : sep ≠ '\\') : ¬ HasSeparator sep ['\\'] := by
  rintro ⟨front, rest, htext, -⟩
  cases front with
  | nil => exact hsep (List.cons.inj htext).1.symm
  | cons a front =>
    have htail := (List.cons.inj htext).2
    simp at htail

theorem hasSeparator_escaped (hsep : sep ≠ '\\') (c : Char) :
    HasSeparator sep ('\\' :: c :: cs) ↔ HasSeparator sep cs := by
  constructor
  · rintro ⟨front, rest, htext, hfront⟩
    -- neither the backslash nor the character behind it is a separator that is not escaped
    match front with
    | [] => exact absurd (List.cons.inj htext).1.symm hsep
    | [a] =>
      obtain ⟨rfl, -⟩ := List.cons.inj htext
      exact absurd hfront (by decide)
    | a :: d :: front =>
      obtain ⟨rfl, hnext⟩ := List.cons.inj htext
      obtain ⟨rfl, htail⟩ := List.cons.inj hnext
      exact ⟨front, rest, htail, hfront⟩
  · rintro ⟨front, rest, rfl, hfront⟩
    exact ⟨'\\' :: c :: front, rest, rfl, hfront⟩

/-- A shielded text has no separator. -/
theorem Shielded.not_hasSeparator (hsep : sep ≠ '\\') (h : Shielded sep cs) :
    ¬ HasSeparator sep cs := by
  induction h with
  | nil => exact not_hasSeparator_nil
  | plain hne hother _ ih =>
    rw [hasSeparator_cons hne]
    exact fun h => h.elim hother ih
  | escaped _ ih =>
    rw [hasSeparator_escaped hsep]
    exact ih

/-- Induction along the escapes of a text: a character stands for itself or behind a backslash, and
a backslash may be left at the end. -/
theorem escape_induction {P : List Char → Prop} (nil : P []) (backslash : P ['\\'])
    (escaped : ∀ c cs, P cs → P ('\\' :: c :: cs))
    (plain : ∀ c cs, c ≠ '\\' → P cs → P (c :: cs)) : ∀ cs, P cs
  | [] => nil
  | [c] =>
    if hc : c = '\\' then hc ▸ backslash
    else plain c [] hc nil
  | c :: d :: rest =>
    if hc : c = '\\' then hc ▸ escaped d rest (escape_induction nil backslash escaped plain rest)
    else plain c (d :: rest) hc (escape_induction nil backslash escaped plain (d :: rest))

/-- The first separator of a text stands behind a shielded one. -/
theorem exists_shielded_front (hsep : sep ≠ '\\') (h : HasSeparator sep cs) :
    ∃ front rest, cs = front ++ sep :: rest ∧ Shielded sep front := by
  induction cs using escape_induction with
  | nil => exact absurd h not_hasSeparator_nil
  | backslash => exact absurd h (not_hasSeparator_backslash hsep)
  | escaped c cs ih =>
    obtain ⟨front, rest, rfl, hfront⟩ := ih ((hasSeparator_escaped hsep c).mp h)
    exact ⟨'\\' :: c :: front, rest, rfl, .escaped hfront⟩
  | plain c cs hc ih =>
    by_cases heq : c = sep
    · exact ⟨[], cs, by rw [heq]; rfl, .nil⟩
    · obtain ⟨front, rest, rfl, hfront⟩ := ih (((hasSeparator_cons hc).mp h).resolve_left heq)
      exact ⟨c :: front, rest, rfl, .plain hc heq hfront⟩

/-! ## Pieces -/

/-- A text without a separator is one piece. -/
theorem splitUnescaped_of_not_hasSeparator (hsep : sep ≠ '\\') (h : ¬ HasSeparator sep cs) :
    splitUnescaped sep cs = (cs, []) := by
  induction cs using escape_induction with
  | nil => rfl
  | backslash => rw [splitUnescaped, if_neg fun h => h.2 rfl]
  | escaped c cs ih =>
    rw [hasSeparator_escaped hsep] at h
    rw [splitUnescaped_escaped, ih h]
  | plain c cs hc ih =>
    rw [hasSeparator_cons hc, not_or] at h
    rw [splitUnescaped_cons hc, if_neg h.1, ih h.2]

/-- A text comes apart at its separators and nowhere else. -/
theorem piecesUnescaped_spec (hsep : sep ≠ '\\') (cs : List Char) :
    [sep].intercalate (piecesUnescaped sep cs) = cs ∧
      (∀ piece ∈ piecesUnescaped sep cs, ¬ HasSeparator sep piece) ∧
      ∀ piece ∈ (piecesUnescaped sep cs).dropLast, escapesNext piece = false := by
  induction hlength : cs.length using Nat.strongRecOn generalizing cs with
  | ind n ih =>
    by_cases h : HasSeparator sep cs
    · obtain ⟨front, rest, rfl, hfront⟩ := exists_shielded_front hsep h
      have hshorter : rest.length < n := by
        rw [← hlength]
        simp
        omega
      obtain ⟨hjoin, hnone, hclosed⟩ := ih _ hshorter rest rfl
      have hpieces : piecesUnescaped sep (front ++ sep :: rest) =
          front :: piecesUnescaped sep rest := by
        unfold piecesUnescaped
        rw [splitUnescaped_append_sep hsep hfront]
        rfl
      have hne : piecesUnescaped sep rest ≠ [] := List.cons_ne_nil _ _
      rw [hpieces, List.dropLast_cons_of_ne_nil hne]
      refine ⟨?_, ?_, ?_⟩
      · unfold piecesUnescaped at hjoin ⊢
        rw [intercalate_cons, hjoin]
      · exact List.forall_mem_cons.mpr ⟨hfront.not_hasSeparator hsep, hnone⟩
      · exact List.forall_mem_cons.mpr ⟨hfront.escapesNext_eq_false, hclosed⟩
    · have hpieces : piecesUnescaped sep cs = [cs] := by
        unfold piecesUnescaped
        rw [splitUnescaped_of_not_hasSeparator hsep h]
      rw [hpieces]
      refine ⟨List.intercalate_singleton, ?_, ?_⟩
      · intro piece hpiece
        rw [List.mem_singleton.mp hpiece]
        exact h
      · intro piece hpiece
        cases hpiece

/-- A text is cut once if it has a separator: at the first one. -/
theorem splitOnceUnescaped_eq_none_iff (hsep : sep ≠ '\\') :
    splitOnceUnescaped sep cs = none ↔ ¬ HasSeparator sep cs := by
  constructor
  · rintro hnone h
    obtain ⟨front, rest, rfl, hfront⟩ := exists_shielded_front hsep h
    rw [splitOnceUnescaped_append_sep hsep hfront] at hnone
    cases hnone
  · intro h
    unfold splitOnceUnescaped
    rw [splitUnescaped_of_not_hasSeparator hsep h]

theorem splitOnceUnescaped_eq_some_iff (hsep : sep ≠ '\\') :
    splitOnceUnescaped sep cs = some (front, rest) ↔
      cs = front ++ sep :: rest ∧ Shielded sep front := by
  constructor
  · intro hsome
    have h : HasSeparator sep cs := Classical.byContradiction fun hnone => by
      rw [(splitOnceUnescaped_eq_none_iff hsep).mpr hnone] at hsome
      cases hsome
    obtain ⟨before, after, rfl, hbefore⟩ := exists_shielded_front hsep h
    rw [splitOnceUnescaped_append_sep hsep hbefore] at hsome
    obtain ⟨rfl, rfl⟩ := Prod.mk.inj (Option.some.inj hsome)
    exact ⟨rfl, hbefore⟩
  · rintro ⟨rfl, hfront⟩
    exact splitOnceUnescaped_append_sep hsep hfront rest

/-! ## In place -/

/-- The middle one of three texts that stand together is a slice of them. -/
theorem slice_middle (a b c : String) :
    slice (a ++ b ++ c) a.utf8ByteSize (a ++ b).utf8ByteSize = .ok b := by
  have hstart : String.Pos.Raw.IsValid (a ++ b ++ c) ⟨a.utf8ByteSize⟩ :=
    String.Pos.Raw.isValid_iff_exists_append.mpr ⟨a, b ++ c, String.append_assoc, rfl⟩
  have hstop : String.Pos.Raw.IsValid (a ++ b ++ c) ⟨(a ++ b).utf8ByteSize⟩ :=
    String.Pos.Raw.isValid_iff_exists_append.mpr ⟨a ++ b, c, rfl, rfl⟩
  have hle : a.utf8ByteSize ≤ (a ++ b).utf8ByteSize := by
    rw [String.utf8ByteSize_append]
    exact Nat.le_add_right _ _
  unfold slice
  rw [dif_pos ⟨hstart, hstop, hle⟩]
  refine congrArg Except.ok (String.toByteArray_inj.mp ?_)
  -- the bytes between the two offsets are those of the middle text
  rw [String.toByteArray_extract, String.toByteArray_append, String.toByteArray_append,
    ByteArray.append_assoc]
  show ByteArray.extract _ (a.toByteArray.size + 0) (a ++ b).utf8ByteSize = _
  rw [String.utf8ByteSize_append]
  show ByteArray.extract _ (a.toByteArray.size + 0) (a.toByteArray.size + b.toByteArray.size) = _
  rw [ByteArray.extract_append_size_add, ByteArray.extract_append_eq_left rfl]

/-- The bytes that characters take. -/
def byteSize (cs : List Char) : Nat := (String.ofList cs).utf8ByteSize

/-- A character that joins a piece ends where the next one begins. -/
theorem byteSize_concat (front piece : List Char) (c : Char) :
    byteSize (front ++ (piece ++ [c])) = byteSize (front ++ piece) + c.utf8Size := by
  unfold byteSize
  rw [← List.append_assoc, String.ofList_append, String.utf8ByteSize_append]
  exact congrArg _ String.utf8ByteSize_singleton

/-- Where a text falls into three parts, the middle one lies between the ends of the first and the
second. -/
theorem slice_eq {s : String} (back : List Char) (h : s.toList = front ++ piece ++ back) :
    slice s (byteSize front) (byteSize (front ++ piece)) = .ok (String.ofList piece) := by
  have hs : s = String.ofList front ++ String.ofList piece ++ String.ofList back := by
    rw [← String.ofList_append, ← String.ofList_append, ← h, String.ofList_toList]
  unfold byteSize
  rw [hs, String.ofList_append]
  exact slice_middle _ _ _

theorem slice_to_end {s : String} (h : s.toList = front ++ piece) :
    slice s (byteSize front) s.utf8ByteSize = .ok (String.ofList piece) := by
  have hslice := slice_eq [] (h.trans (List.append_nil _).symm)
  rwa [← h, byteSize, byteSize, String.ofList_toList] at hslice

/-- Cutting in place goes on with the piece that it has begun. -/
theorem slicesFrom_eq {s : String} (front piece : List Char)
    (h : s.toList = front ++ piece ++ rest) :
    slicesFrom s sep (byteSize front) false (charOffsets (byteSize (front ++ piece)) rest) =
      .ok (String.ofList (piece ++ (splitUnescaped sep rest).1) ::
        (splitUnescaped sep rest).2.map String.ofList) := by
  induction rest using escape_induction generalizing front piece with
  | nil =>
    rw [List.append_nil] at h
    show Except.map _ (slice s (byteSize front) s.utf8ByteSize) = _
    rw [slice_to_end h, splitUnescaped, List.append_nil]
    rfl
  | backslash =>
    rw [List.append_assoc] at h
    show Except.map _ (slice s (byteSize front) s.utf8ByteSize) = _
    rw [slice_to_end h, splitUnescaped, if_neg fun h => h.2 rfl]
    rfl
  | escaped c cs ih =>
    have hwhole : s.toList = front ++ (piece ++ ['\\'] ++ [c]) ++ cs := by simpa using h
    rw [charOffsets, charOffsets, slicesFrom, if_neg Bool.false_ne_true, if_pos rfl, slicesFrom,
      if_pos rfl, ← byteSize_concat, ← byteSize_concat, ih _ _ hwhole, splitUnescaped_escaped]
    simp
  | plain c cs hc ih =>
    rw [charOffsets, slicesFrom, if_neg Bool.false_ne_true, if_neg hc, splitUnescaped_cons hc]
    by_cases hsep : c = sep
    · have hwhole : s.toList = (front ++ (piece ++ [c])) ++ [] ++ cs := by simpa using h
      have hothers := ih _ _ hwhole
      rw [List.append_nil] at hothers
      rw [if_pos hsep, if_pos hsep, slice_eq _ h, ← byteSize_concat]
      show (do let others ← slicesFrom _ _ _ _ _; return _ :: others) = _
      rw [hothers, List.append_nil]
      rfl
    · have hwhole : s.toList = front ++ (piece ++ [c]) ++ cs := by simpa using h
      rw [if_neg hsep, if_neg hsep, ← byteSize_concat, ih _ _ hwhole]
      simp

theorem slicesUnescaped_eq (sep : Char) (s : String) :
    slicesUnescaped sep s = .ok ((piecesUnescaped sep s.toList).map String.ofList) :=
  slicesFrom_eq [] [] rfl

theorem sliceOnceUnescaped_eq (hsep : sep ≠ '\\') (s : String) :
    sliceOnceUnescaped sep s =
      .ok ((splitOnceUnescaped sep s.toList).map fun found =>
        (String.ofList found.1, String.ofList found.2)) := by
  unfold sliceOnceUnescaped
  rw [slicesUnescaped_eq]
  cases hsplit : splitOnceUnescaped sep s.toList with
  | none =>
    have hnone := (splitOnceUnescaped_eq_none_iff hsep).mp hsplit
    unfold piecesUnescaped
    rw [splitUnescaped_of_not_hasSeparator hsep hnone]
    rfl
  | some found =>
    obtain ⟨front, rest⟩ := found
    obtain ⟨htext, hfront⟩ := (splitOnceUnescaped_eq_some_iff hsep).mp hsplit
    -- the rest begins behind the first piece and the separator
    have hwhole : s.toList = (front ++ [sep]) ++ rest := by simpa using htext
    have hrest := slice_to_end hwhole
    have hoffset := byteSize_concat front [] sep
    rw [List.nil_append, List.append_nil] at hoffset
    rw [hoffset] at hrest
    unfold piecesUnescaped
    rw [htext, splitUnescaped_append_sep hsep hfront]
    show (do let rest ← slice s (byteSize front + sep.utf8Size) s.utf8ByteSize; return _) = _
    rw [hrest]
    rfl

theorem map_toList_map_ofList (texts : List (List Char)) :
    (texts.map String.ofList).map String.toList = texts := by
  rw [List.map_map]
  exact (List.map_congr_left fun _ _ => String.toList_ofList).trans (List.map_id texts)

/-! ## Every text and every separator -/

/-- Every text, whatever its characters, comes apart in place at its separators that are not
escaped: all slices begin and end between characters, the pieces joined by the separator are the
text, none of them has a separator, and none but the last ends in a backslash that waits for a
character.  A text is cut once, in place or not, exactly if it has a separator: into what stands
before and behind the first one.  Any character but the backslash may separate, so the three that
descriptors are cut at may. -/
theorem cuts_at_separators {sep : Char} (hsep : sep ≠ '\\') (s : String) :
    (∃ pieces, slicesUnescaped sep s = .ok pieces ∧
      pieces.map String.toList = piecesUnescaped sep s.toList ∧
      (String.singleton sep).intercalate pieces = s ∧
      (∀ piece ∈ pieces, ¬ HasSeparator sep piece.toList) ∧
      ∀ piece ∈ pieces.dropLast, escapesNext piece.toList = false) ∧
    ∃ found, sliceOnceUnescaped sep s = .ok found ∧
      found.map (fun found => (found.1.toList, found.2.toList)) = splitOnceUnescaped sep s.toList ∧
      (found = none ↔ ¬ HasSeparator sep s.toList) ∧
      ∀ front rest, found = some (front, rest) →
        s = front ++ String.singleton sep ++ rest ∧ ¬ HasSeparator sep front.toList ∧
          escapesNext front.toList = false := by
  obtain ⟨hjoin, hnone, hclosed⟩ := piecesUnescaped_spec hsep s.toList
  refine ⟨⟨_, slicesUnescaped_eq sep s, ?_, ?_, ?_, ?_⟩, _, sliceOnceUnescaped_eq hsep s,
    ?_, ?_, ?_⟩
  · exact map_toList_map_ofList _
  · rw [← String.toList_inj, String.toList_intercalate, map_toList_map_ofList,
      String.toList_singleton, hjoin]
  · intro piece hpiece
    obtain ⟨cs, hcs, rfl⟩ := List.mem_map.mp hpiece
    rw [String.toList_ofList]
    exact hnone cs hcs
  · intro piece hpiece
    rw [← List.map_dropLast] at hpiece
    obtain ⟨cs, hcs, rfl⟩ := List.mem_map.mp hpiece
    rw [String.toList_ofList]
    exact hclosed cs hcs
  · cases splitOnceUnescaped sep s.toList <;> simp
  · rw [Option.map_eq_none_iff]
    exact splitOnceUnescaped_eq_none_iff hsep
  · intro front rest hfound
    obtain ⟨⟨before, after⟩, hsplit, heq⟩ := Option.map_eq_some_iff.mp hfound
    obtain ⟨rfl, rfl⟩ := Prod.mk.inj heq
    obtain ⟨htext, hbefore⟩ := (splitOnceUnescaped_eq_some_iff hsep).mp hsplit
    rw [String.toList_ofList]
    refine ⟨?_, hbefore.not_hasSeparator hsep, hbefore.escapesNext_eq_false⟩
    rw [← String.toList_inj, htext]
    simp

/-- Characters of one to four bytes, a separator that is escaped, one behind an escaped backslash,
and a backslash at the end. -/
theorem cuts_at_separators_manyBytes :
    ':' ≠ '\\' ∧
      slicesUnescaped ':' "é\\:😀:\\\\:ﬀ\\" = .ok ["é\\:😀", "\\\\", "ﬀ\\"] ∧
      sliceOnceUnescaped ':' "é\\:😀:\\\\:ﬀ\\" = .ok (some ("é\\:😀", "\\\\:ﬀ\\")) := by
  have hsep : ':' ≠ '\\' := by decide
  obtain ⟨⟨pieces, hpieces, hlists, -⟩, found, hfound, honce, -⟩ :=
    cuts_at_separators hsep "é\\:😀:\\\\:ﬀ\\"
  refine ⟨hsep, ?_, ?_⟩
  · rw [hpieces]
    exact congrArg Except.ok
      ((List.map_inj_right fun _ _ h => String.toList_inj.mp h).mp (hlists.trans (by rfl)))
  · have hparts : found.map (fun found => (found.1.toList, found.2.toList)) =
        some ("é\\:😀".toList, "\\\\:ﬀ\\".toList) := honce.trans (by rfl)
    obtain ⟨⟨front, rest⟩, rfl, heq⟩ := Option.map_eq_some_iff.mp hparts
    obtain ⟨hfront, hrest⟩ := Prod.mk.inj heq
    obtain rfl := String.toList_inj.mp hfront
    obtain rfl := String.toList_inj.mp hrest
    exact hfound

end Admission
