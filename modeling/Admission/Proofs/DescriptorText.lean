import Admission.Descriptor
import Admission.Proofs.Escaping

/-!
# Descriptors are read as they are written

The text of a descriptor is cut at colons, then at commas, then at equals signs, and blanks are
trimmed off every part.  Its parts are escaped once, which shields them from all three separators,
and where no part begins or ends with a blank there is nothing to trim.

* `Descriptor.parse_text` — a printable descriptor is read back from its text.
-/

namespace Admission

namespace Descriptor

/-- No part begins or ends with a blank, and no key is empty. -/
structure Printable (d : Descriptor) : Prop where
  domain : Tight d.domain.toList
  keys : ∀ entry ∈ d.entries, Tight entry.1.toList ∧ entry.1 ≠ ""
  values : ∀ entry ∈ d.entries, Tight entry.2.toList

variable {d : Descriptor} {entry : String × String} {s : String}

theorem shielded_escape_special {sep : Char} (hsep : sep ∈ special) (s : String) :
    Shielded sep (escape special s.toList) := shielded_escape (by decide) hsep s.toList

/-- A part that was escaped is read as it was. -/
theorem part_escape (h : Tight s.toList) : part (escape special s.toList) = s := by
  unfold part
  rw [trim_of_tight (h.escape special), unescape_escape (by decide), String.ofList_toList]

/-! ## Entries -/

theorem shielded_entryText (entry : String × String) : Shielded ',' (entryText entry) := by
  refine (shielded_escape_special (by decide) entry.1).append ?_
  exact .plain (by decide) (by decide) (shielded_escape_special (by decide) entry.2)

theorem tight_entryText (hkey : Tight entry.1.toList) (hvalue : Tight entry.2.toList) :
    Tight (entryText entry) :=
  (hkey.escape special).append_sep (by decide) (hvalue.escape special)

theorem entryText_ne_nil (entry : String × String) : entryText entry ≠ [] := by
  unfold entryText
  simp

theorem parseEntry_entryText (hkey : Tight entry.1.toList) (hne : entry.1 ≠ "")
    (hvalue : Tight entry.2.toList) : parseEntry (entryText entry) = .ok entry := by
  have hnonempty : ¬ (trim (escape special entry.1.toList)).isEmpty = true := by
    rw [trim_of_tight (hkey.escape special), List.isEmpty_iff, escape_eq_nil,
      String.toList_eq_nil_iff]
    exact hne
  unfold parseEntry entryText
  rw [splitOnceUnescaped_append_sep (by decide) (shielded_escape_special (by decide) entry.1)]
  dsimp only
  rw [if_neg hnonempty, part_escape hkey, part_escape hvalue]

/-- The texts of entries come apart as they were joined. -/
theorem entryTexts_intercalate {texts : List (List Char)} (hshielded : ∀ t ∈ texts, Shielded ',' t)
    (htight : ∀ t ∈ texts, Tight t) (hne : ∀ t ∈ texts, t ≠ []) :
    entryTexts ([','].intercalate texts) = texts := by
  unfold entryTexts
  by_cases hnone : texts = []
  · -- no entries at all leave one empty piece, which is passed over
    subst hnone
    rfl
  · rw [piecesUnescaped_intercalate (by decide) hnone hshielded]
    have htrim : texts.map trim = texts := by
      refine (List.map_congr_left fun t ht => ?_).trans (List.map_id texts)
      exact trim_of_tight (htight t ht)
    rw [htrim, List.filter_eq_self]
    intro t ht
    cases t with
    | nil => exact absurd rfl (hne [] ht)
    | cons c rest => rfl

theorem mapM_parseEntry {entries : List (String × String)}
    (h : ∀ entry ∈ entries, parseEntry (entryText entry) = .ok entry) :
    (entries.map entryText).mapM parseEntry = .ok entries := by
  induction entries with
  | nil => rfl
  | cons entry rest ih =>
    obtain ⟨hentry, hrest⟩ := List.forall_mem_cons.mp h
    rw [List.map_cons, List.mapM_cons, hentry, ih hrest]
    rfl

/-! ## Whole descriptors -/

/-- **A printable descriptor is read back from its text.** Whatever characters its parts consist
of, as long as none begins or ends with a blank and no key is empty. -/
theorem parse_text (d : Descriptor) (h : d.Printable) : parse d.text = .ok d := by
  have htight : ∀ t ∈ d.entries.map entryText, Tight t := by
    intro t ht
    obtain ⟨entry, hentry, rfl⟩ := List.mem_map.mp ht
    exact tight_entryText (h.keys entry hentry).1 (h.values entry hentry)
  have hshielded : ∀ t ∈ d.entries.map entryText, Shielded ',' t := by
    intro t ht
    obtain ⟨entry, _, rfl⟩ := List.mem_map.mp ht
    exact shielded_entryText entry
  have hne : ∀ t ∈ d.entries.map entryText, t ≠ [] := by
    intro t ht
    obtain ⟨entry, _, rfl⟩ := List.mem_map.mp ht
    exact entryText_ne_nil entry
  have htrim : trim d.chars = d.chars :=
    trim_of_tight ((h.domain.escape special).append_sep (by decide)
      (Tight.intercalate (by decide) htight))
  have hentries : (d.entries.map entryText).mapM parseEntry = .ok d.entries :=
    mapM_parseEntry fun entry hentry =>
      parseEntry_entryText (h.keys entry hentry).1 (h.keys entry hentry).2
        (h.values entry hentry)
  unfold parse text parseChars
  rw [String.toList_ofList, htrim]
  unfold chars
  rw [splitOnceUnescaped_append_sep (by decide) (shielded_escape_special (by decide) d.domain)]
  dsimp only
  rw [entryTexts_intercalate hshielded htight hne, hentries, part_escape h.domain]
  rfl

/-- Separators and backslashes in every part, a repeated key, a blank inside and an empty value. -/
def entangled : Descriptor :=
  ⟨"edge:eu", [("query", "a=1,b=2"), ("path", "C:\\tmp\\"), ("query", ""), ("x,=y", "a b")]⟩

theorem parse_text_entangled :
    entangled.Printable ∧
      parse "edge\\:eu:query=a\\=1\\,b\\=2,path=C\\:\\\\tmp\\\\,query=,x\\,\\=y=a b" =
        .ok entangled := by
  have hprintable : entangled.Printable := ⟨by decide, by decide, by decide⟩
  have htext : entangled.text =
      "edge\\:eu:query=a\\=1\\,b\\=2,path=C\\:\\\\tmp\\\\,query=,x\\,\\=y=a b" := by decide
  refine ⟨hprintable, ?_⟩
  rw [← htext]
  exact parse_text entangled hprintable

end Descriptor

end Admission
