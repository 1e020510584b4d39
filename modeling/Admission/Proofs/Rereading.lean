import Admission.Proofs.DescriptorText
import Admission.Proofs.Traversal
import Admission.Proofs.Trimming

/-!
# Descriptors that are read, written and read again

The reader takes a character behind a backslash for what it is, also a blank, and takes blanks off
the ends of a part before it looks at its backslashes.  So a part that is read may begin with a
blank, and a key may come out empty.  The writer puts no backslash before a blank, and the blank is
gone when the text is read once more.

* `parse_text_eq_ok` — what is read back from a written descriptor: every part without the blanks
  around it, unless that leaves no key.
* `reread_iff_printable` — a descriptor that was read comes back if and only if it is printable, and
  that is so for everything read from a tidy text; a text that was written and read back is stable.
* `reread_loses_blank` — a text of which the descriptor does not come back, and one of which the
  descriptor is refused.
-/

namespace Admission

namespace Descriptor

variable {d : Descriptor} {entry : String × String} {s : String}

/-- A text without the blanks around it. -/
def trimText (s : String) : String := String.ofList (trim s.toList)

/-- A descriptor without the blanks around its parts. -/
def trimmed (d : Descriptor) : Descriptor :=
  ⟨trimText d.domain, d.entries.map fun entry => (trimText entry.1, trimText entry.2)⟩

/-- No key consists of blanks only. -/
def Named (d : Descriptor) : Prop := ∀ entry ∈ d.entries, trim entry.1.toList ≠ []

theorem special_not_blank : ∀ c ∈ special, isBlank c = false := by
  simp [special, isBlank]

theorem trimText_of_tight (h : Tight s.toList) : trimText s = s := by
  unfold trimText
  rw [trim_of_tight h, String.ofList_toList]

theorem toList_trimText (s : String) : (trimText s).toList = trim s.toList :=
  String.toList_ofList

/-! ## Reading what was written -/

theorem part_trimLeft_escape (s : String) :
    part (trimLeft (escape special s.toList)) = trimText s := by
  unfold part trimText
  rw [trim_trimLeft, trim_escape special_not_blank, unescape_escape (by decide)]

theorem part_trimRight_escape (s : String) :
    part (trimRight (escape special s.toList)) = trimText s := by
  unfold part trimText
  rw [trim_trimRight, trim_escape special_not_blank, unescape_escape (by decide)]

theorem trim_entryText (entry : String × String) :
    trim (entryText entry) =
      escape special (trimLeft entry.1.toList) ++
        '=' :: escape special (trimRight entry.2.toList) := by
  unfold entryText
  rw [trim_append_sep (by decide), trimLeft_escape special_not_blank,
    trimRight_escape special_not_blank]

theorem trimRight_entryText (entry : String × String) :
    trimRight (entryText entry) =
      escape special entry.1.toList ++ '=' :: escape special (trimRight entry.2.toList) := by
  unfold entryText
  rw [trimRight_append_sep (by decide), trimRight_escape special_not_blank]

/-- An entry is read without the blanks around its key and its value, if that leaves a key. -/
theorem parseEntry_trim_entryText (entry : String × String) :
    parseEntry (trim (entryText entry)) =
      if trim entry.1.toList = [] then .error (.emptyKey (String.ofList (trim (entryText entry))))
      else .ok (trimText entry.1, trimText entry.2) := by
  have hsplit : splitOnceUnescaped '=' (trim (entryText entry)) =
      some (escape special (trimLeft entry.1.toList),
        escape special (trimRight entry.2.toList)) := by
    rw [trim_entryText]
    exact splitOnceUnescaped_append_sep (by decide) (shielded_escape (by decide) (by decide) _) _
  have hkey : trim (escape special (trimLeft entry.1.toList)) = [] ↔
      trim entry.1.toList = [] := by
    rw [trim_escape special_not_blank, escape_eq_nil, trim_trimLeft]
  unfold parseEntry
  rw [hsplit]
  dsimp only
  simp only [List.isEmpty_iff, hkey]
  rw [← trimLeft_escape special_not_blank, ← trimRight_escape special_not_blank,
    part_trimLeft_escape, part_trimRight_escape]

theorem trim_entryText_ne_nil (entry : String × String) : trim (entryText entry) ≠ [] := by
  rw [trim_entryText]
  simp

/-- Texts that stay shielded without the blanks at their end come apart as they were joined, also
where the last of them has lost its blanks. -/
theorem map_trim_piecesUnescaped {sep : Char} (hsep : sep ≠ '\\') (hblank : isBlank sep = false)
    {texts : List (List Char)} (hne : texts ≠ []) (hwhole : ∀ t ∈ texts, Shielded sep t)
    (hcut : ∀ t ∈ texts, Shielded sep (trimRight t)) :
    (piecesUnescaped sep (trimRight ([sep].intercalate texts))).map trim = texts.map trim := by
  induction texts with
  | nil => exact absurd rfl hne
  | cons text rest ih =>
    obtain ⟨htext, hrest⟩ := List.forall_mem_cons.mp hwhole
    obtain ⟨htextCut, hrestCut⟩ := List.forall_mem_cons.mp hcut
    cases rest with
    | nil =>
      rw [List.intercalate_singleton, piecesUnescaped_of_shielded htextCut]
      simp [trim_trimRight]
    | cons next others =>
      have hnext := ih (List.cons_ne_nil _ _) hrest hrestCut
      unfold piecesUnescaped at hnext ⊢
      rw [intercalate_cons, trimRight_append_sep hblank, splitUnescaped_append_sep hsep htext]
      rw [List.map_cons, List.map_cons]
      exact congrArg (trim text :: ·) hnext

theorem entryTexts_written (entries : List (String × String)) :
    entryTexts (trimRight ([','].intercalate (entries.map entryText))) =
      entries.map fun entry => trim (entryText entry) := by
  unfold entryTexts
  by_cases hnone : entries = []
  · subst hnone
    rfl
  · have hwhole : ∀ t ∈ entries.map entryText, Shielded ',' t := by
      intro t ht
      obtain ⟨entry, _, rfl⟩ := List.mem_map.mp ht
      exact shielded_entryText entry
    have hcut : ∀ t ∈ entries.map entryText, Shielded ',' (trimRight t) := by
      intro t ht
      obtain ⟨entry, _, rfl⟩ := List.mem_map.mp ht
      rw [trimRight_entryText]
      refine (shielded_escape_special (by decide) entry.1).append ?_
      exact .plain (by decide) (by decide) (shielded_escape (by decide) (by decide) _)
    have hne : entries.map entryText ≠ [] := by simpa using hnone
    rw [map_trim_piecesUnescaped (by decide) (by decide) hne hwhole hcut, List.map_map]
    show (entries.map fun entry => trim (entryText entry)).filter _ = _
    rw [List.filter_eq_self]
    intro t ht
    obtain ⟨entry, _, rfl⟩ := List.mem_map.mp ht
    simpa using trim_entryText_ne_nil entry

/-- The reader of a written descriptor gets to its entries. -/
theorem parse_text_eq (d : Descriptor) :
    parse d.text =
      ((d.entries.map fun entry => trim (entryText entry)).mapM parseEntry).map
        fun entries => ⟨trimText d.domain, entries⟩ := by
  have htrim : trim d.chars = escape special (trimLeft d.domain.toList) ++
      ':' :: trimRight ([','].intercalate (d.entries.map entryText)) := by
    unfold chars
    rw [trim_append_sep (by decide), trimLeft_escape special_not_blank]
  unfold parse text parseChars
  rw [String.toList_ofList, htrim, splitOnceUnescaped_append_sep (by decide)
    (shielded_escape (by decide) (by decide) _)]
  dsimp only
  rw [entryTexts_written, ← trimLeft_escape special_not_blank, part_trimLeft_escape]
  rfl

theorem map_parseEntry (h : d.Named) :
    (d.entries.map fun entry => trim (entryText entry)).map parseEntry =
      d.trimmed.entries.map .ok := by
  unfold trimmed
  rw [List.map_map, List.map_map]
  refine List.map_congr_left fun entry hentry => ?_
  show parseEntry (trim (entryText entry)) = .ok (trimText entry.1, trimText entry.2)
  rw [parseEntry_trim_entryText, if_neg (h entry hentry)]

/-- **What is read back.** A written descriptor is read back without the blanks around its parts, if
that leaves it every key, and is refused otherwise. -/
theorem parse_text_eq_ok {d' : Descriptor} :
    parse d.text = .ok d' ↔ d.Named ∧ d' = d.trimmed := by
  rw [parse_text_eq]
  constructor
  · intro h
    cases hentries : (d.entries.map fun entry => trim (entryText entry)).mapM parseEntry with
    | error cause =>
      rw [hentries] at h
      cases h
    | ok entries =>
      rw [hentries] at h
      obtain rfl := Except.ok.inj h
      have hmap := mapM_eq_ok_iff.mp hentries
      have hnamed : d.Named := by
        intro entry hentry hblank
        -- an entry without a key would have been refused
        have hmem : parseEntry (trim (entryText entry)) ∈ entries.map .ok := by
          rw [← hmap, List.map_map]
          exact List.mem_map.mpr ⟨entry, hentry, rfl⟩
        obtain ⟨_, _, hok⟩ := List.mem_map.mp hmem
        rw [parseEntry_trim_entryText, if_pos hblank] at hok
        cases hok
      refine ⟨hnamed, ?_⟩
      rw [map_parseEntry hnamed] at hmap
      have hsame : d.trimmed.entries = entries :=
        List.map_inj_right (fun _ _ h => Except.ok.inj h) |>.mp hmap
      rw [← hsame]
      rfl
  · rintro ⟨hnamed, rfl⟩
    rw [mapM_eq_ok_iff.mpr (map_parseEntry hnamed)]
    rfl

/-- The printable descriptors are those that lose nothing when they are trimmed. -/
theorem printable_iff : d.Printable ↔ d.Named ∧ d = d.trimmed := by
  constructor
  · intro h
    refine ⟨?_, ?_⟩
    · intro entry hentry hblank
      obtain ⟨htight, hne⟩ := h.keys entry hentry
      rw [trim_of_tight htight, String.toList_eq_nil_iff] at hblank
      exact hne hblank
    · have hentries : d.entries.map (fun entry => (trimText entry.1, trimText entry.2)) =
          d.entries.map id := by
        refine List.map_congr_left fun entry hentry => ?_
        rw [trimText_of_tight (h.keys entry hentry).1, trimText_of_tight (h.values entry hentry)]
        rfl
      unfold trimmed
      rw [trimText_of_tight h.domain, hentries, List.map_id]
  · rintro ⟨hnamed, htrimmed⟩
    have htight : ∀ s : String, Tight (trimText s).toList := by
      intro s
      rw [toList_trimText]
      exact tight_trim _
    have hentries : ∀ entry ∈ d.entries, Tight entry.1.toList ∧ Tight entry.2.toList := by
      intro entry hentry
      rw [htrimmed] at hentry
      obtain ⟨before, _, rfl⟩ := List.mem_map.mp hentry
      exact ⟨htight before.1, htight before.2⟩
    refine ⟨?_, ?_, fun entry hentry => (hentries entry hentry).2⟩
    · rw [htrimmed]
      exact htight d.domain
    · intro entry hentry
      refine ⟨(hentries entry hentry).1, ?_⟩
      intro hempty
      refine hnamed entry hentry ?_
      rw [hempty]
      rfl

/-! ## Reading a tidy text -/

theorem tight_part {cs : List Char} (h : Tidy cs) : Tight (part cs).toList := by
  unfold part
  rw [String.toList_ofList]
  exact h.trim.tight_unescape (tight_trim cs)

theorem part_ne_empty {cs : List Char} (h : Tidy cs) (hne : trim cs ≠ []) : part cs ≠ "" := by
  intro hempty
  unfold part at hempty
  rw [← String.toList_eq_nil_iff, String.toList_ofList, h.trim.unescape_eq_nil] at hempty
  exact hne hempty

theorem tight_of_parseEntry {cs : List Char} (h : Tidy cs) (hentry : parseEntry cs = .ok entry) :
    (Tight entry.1.toList ∧ entry.1 ≠ "") ∧ Tight entry.2.toList := by
  unfold parseEntry at hentry
  cases hsplit : splitOnceUnescaped '=' cs with
  | none =>
    rw [hsplit] at hentry
    cases hentry
  | some found =>
    obtain ⟨key, value⟩ := found
    obtain ⟨hkey, hvalue⟩ := h.splitOnce hsplit
    rw [hsplit] at hentry
    dsimp only at hentry
    split at hentry
    · cases hentry
    · next hne =>
      obtain rfl := Except.ok.inj hentry
      rw [List.isEmpty_iff] at hne
      exact ⟨⟨tight_part hkey, part_ne_empty hkey hne⟩, tight_part hvalue⟩

theorem tidy_of_mem_entryTexts {cs text : List Char} (h : Tidy cs) (htext : text ∈ entryTexts cs) :
    Tidy text := by
  unfold entryTexts at htext
  obtain ⟨piece, hpiece, rfl⟩ := List.mem_map.mp (List.mem_filter.mp htext).1
  have hpieces : Tidy (splitUnescaped ',' cs).1 ∧ ∀ piece ∈ (splitUnescaped ',' cs).2, Tidy piece :=
    h.split
  obtain ⟨hfirst, hothers⟩ := hpieces
  rcases List.mem_cons.mp hpiece with rfl | hpiece
  · exact hfirst.trim
  · exact (hothers piece hpiece).trim

/-- What is read from a tidy text is printable. -/
theorem printable_of_parse (h : parse s = .ok d) (htidy : Tidy s.toList) : d.Printable := by
  unfold parse parseChars at h
  cases hsplit : splitOnceUnescaped ':' (trim s.toList) with
  | none =>
    rw [hsplit] at h
    cases h
  | some found =>
    obtain ⟨domain, rest⟩ := found
    obtain ⟨hdomain, hrest⟩ := htidy.trim.splitOnce hsplit
    rw [hsplit] at h
    obtain ⟨entries, hentries, hd⟩ := bind_eq_ok_iff.mp h
    obtain rfl := Except.ok.inj hd
    have hread : ∀ entry ∈ entries,
        (Tight entry.1.toList ∧ entry.1 ≠ "") ∧ Tight entry.2.toList := by
      intro entry hentry
      obtain ⟨text, htext, hok⟩ := (mem_of_mapM_eq_ok hentries).mp hentry
      exact tight_of_parseEntry (tidy_of_mem_entryTexts hrest htext) hok
    exact ⟨tight_part hdomain, fun entry hentry => (hread entry hentry).1,
      fun entry hentry => (hread entry hentry).2⟩

/-- A written text is tidy, whatever was written. -/
theorem tidy_chars (d : Descriptor) : Tidy d.chars := by
  have hescape : ∀ s : String, Tidy (escape special s.toList) := by
    intro s
    exact tidy_escape special_not_blank (by decide) s.toList
  have hentries : ∀ texts : List (List Char), (∀ t ∈ texts, Tidy t) →
      Tidy ([','].intercalate texts) := by
    intro texts
    induction texts with
    | nil => exact fun _ => .nil
    | cons text rest ih =>
      intro h
      obtain ⟨htext, hrest⟩ := List.forall_mem_cons.mp h
      cases rest with
      | nil =>
        rw [List.intercalate_singleton]
        exact htext
      | cons next others =>
        rw [intercalate_cons]
        exact htext.append (.plain (by decide) (ih hrest))
  unfold chars
  refine (hescape d.domain).append (.plain (by decide) (hentries _ fun t ht => ?_))
  obtain ⟨entry, _, rfl⟩ := List.mem_map.mp ht
  exact (hescape entry.1).append (.plain (by decide) (hescape entry.2))

/-! ## Reading again -/

/-- **A descriptor that was read comes back if and only if it is printable.** It is when it was read
from a text without a backslash before a blank or at the end.  When it is not, what comes back, if
anything does, is the descriptor without the blanks around its parts, and that comes back from then
on. -/
theorem reread_iff_printable {s : String} {d : Descriptor} (h : parse s = .ok d) :
    (parse d.text = .ok d ↔ d.Printable) ∧
    (Tidy s.toList → parse d.text = .ok d) ∧
    (∀ d', parse d.text = .ok d' ↔ d.Named ∧ d' = d.trimmed) ∧
    ∀ d', parse d.text = .ok d' → parse d'.text = .ok d' := by
  have hback : ∀ d : Descriptor, parse d.text = .ok d ↔ d.Printable := by
    intro d
    rw [parse_text_eq_ok, printable_iff]
  refine ⟨hback d, ?_, fun d' => parse_text_eq_ok, ?_⟩
  · intro htidy
    exact (hback d).mpr (printable_of_parse h htidy)
  · intro d' hd'
    have htidy : Tidy d.text.toList := by
      unfold text
      rw [String.toList_ofList]
      exact tidy_chars d
    exact (hback d').mpr (printable_of_parse hd' htidy)

/-- Blanks around every part, an entry of nothing, and backslashes that are there for a reason or
for none. -/
theorem reread_iff_printable_tidy :
    parse " edge : note = x\\=\\y z ,, a\\,b = " = .ok ⟨"edge", [("note", "x=y z"), ("a,b", "")]⟩ ∧
      parse (text ⟨"edge", [("note", "x=y z"), ("a,b", "")]⟩) =
        .ok ⟨"edge", [("note", "x=y z"), ("a,b", "")]⟩ := by
  have hread : parse " edge : note = x\\=\\y z ,, a\\,b = " =
      .ok ⟨"edge", [("note", "x=y z"), ("a,b", "")]⟩ := by rfl
  exact ⟨hread, (reread_iff_printable hread).2.1 (by decide)⟩

/-- A value whose first character is a blank that was read from behind a backslash. -/
def indented : Descriptor := ⟨"edge", [("note", " x")]⟩

/-- An entry whose key was a lone backslash once the blank behind it was trimmed. -/
def nameless : Descriptor := ⟨"edge", [("", "x")]⟩

/-- A value loses its blank when it is written and read again, and a key that came out empty is
refused. -/
theorem reread_loses_blank :
    (parse "edge:note=\\ x" = .ok indented ∧ parse indented.text = .ok ⟨"edge", [("note", "x")]⟩ ∧
      parse indented.text ≠ .ok indented) ∧
    parse "edge:\\ =x" = .ok nameless ∧ parse nameless.text = .error (.emptyKey "=x") := by
  have hback : parse indented.text = .ok ⟨"edge", [("note", "x")]⟩ := by rfl
  refine ⟨⟨by rfl, hback, ?_⟩, by rfl, by rfl⟩
  rw [hback]
  intro h
  exact absurd (Except.ok.inj h) (by decide)

end Descriptor

end Admission
