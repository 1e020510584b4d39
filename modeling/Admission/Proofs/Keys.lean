import Admission.Proofs.Cutting
import Admission.Proofs.DescriptorText
import Admission.Proofs.Traversal
import Admission.Proofs.Trimming
import Mathlib.Data.List.TakeWhile

/-!
# Keys that come out empty

An entry with nothing before its equals sign is refused.  The reader looks for that before it takes
the backslashes off, and it trims the key first: of a backslash that stands before blanks only the
backslash is left, which is something, and then escapes nothing and is dropped.

* `unescape_eq_nil_iff` — a lone backslash is the only text that comes out empty.
* `Descriptor.parseEntry_key_eq_empty_iff` — so a key comes out empty exactly if its entry begins
  with a backslash and blanks before the equals sign.
* `Descriptor.empty_key_iff` — the same of all that is read from a text; without a backslash before
  a blank no key is empty.  `Descriptor.reads_empty_key` is a text that has one.
-/

namespace Admission

variable {cs : List Char}

theorem unescape_eq_nil_iff : unescape cs = [] ↔ cs = [] ∨ cs = ['\\'] := by
  induction cs using escape_induction with
  | nil => exact iff_of_true rfl (.inl rfl)
  | backslash => exact iff_of_true rfl (.inr rfl)
  | escaped c cs _ =>
    rw [unescape_escaped]
    exact iff_of_false (List.cons_ne_nil _ _) (by simp)
  | plain c cs hc _ =>
    rw [unescape_cons hc]
    refine iff_of_false (List.cons_ne_nil _ _) ?_
    rintro (h | h)
    · cases h
    · exact hc (List.cons.inj h).1

theorem trimRight_eq_nil_iff : trimRight cs = [] ↔ ∀ c ∈ cs, isBlank c = true := by
  unfold trimRight
  rw [List.reverse_eq_nil_iff, List.dropWhile_eq_nil_iff]
  simp

theorem trim_isInfix (cs : List Char) : trim cs <:+: cs := by
  have hleft : trimLeft cs <:+ cs := List.dropWhile_suffix _
  have hright : trim cs <+: trimLeft cs := by
    unfold trim trimRight
    rw [← List.reverse_suffix, List.reverse_reverse]
    exact List.dropWhile_suffix _
  exact hright.isInfix.trans hleft.isInfix

/-- Each of several texts stands in the text that they are joined to. -/
theorem infix_intercalate {sep : Char} {texts : List (List Char)} {text : List Char}
    (h : text ∈ texts) : text <:+: [sep].intercalate texts := by
  induction texts with
  | nil => cases h
  | cons first rest ih =>
    cases rest with
    | nil =>
      obtain rfl := List.mem_singleton.mp h
      have hwhole : [sep].intercalate [text] = text := List.intercalate_singleton
      exact hwhole.symm ▸ List.infix_rfl
    | cons next others =>
      rw [intercalate_cons]
      rcases List.mem_cons.mp h with rfl | h
      · exact (List.prefix_append _ _).isInfix
      · refine (ih h).trans ?_
        exact ((List.suffix_cons sep _).trans (List.suffix_append first _)).isInfix

namespace Descriptor

variable {text : List Char} {entry : String × String} {s : String} {d : Descriptor}

/-- The text of an entry begins with a backslash that only blanks part from the equals sign. -/
def BlankKey (text : List Char) : Prop :=
  ∃ blanks value, blanks ≠ [] ∧ (∀ c ∈ blanks, isBlank c = true) ∧
    text = '\\' :: blanks ++ '=' :: value

/-- The blank behind the backslash is escaped, so the equals sign is not. -/
theorem shielded_blanks {blanks : List Char} (hne : blanks ≠ [])
    (h : ∀ c ∈ blanks, isBlank c = true) : Shielded '=' ('\\' :: blanks) := by
  have hplain : ∀ blanks : List Char, (∀ c ∈ blanks, isBlank c = true) → Shielded '=' blanks := by
    intro blanks
    induction blanks with
    | nil => exact fun _ => .nil
    | cons c rest ih =>
      intro h
      obtain ⟨hc, hrest⟩ := List.forall_mem_cons.mp h
      refine .plain ?_ ?_ (ih hrest)
      · rintro rfl
        exact absurd hc (by decide)
      · rintro rfl
        exact absurd hc (by decide)
  cases blanks with
  | nil => exact absurd rfl hne
  | cons c rest => exact .escaped (hplain rest (List.forall_mem_cons.mp h).2)

/-- What is left of a key without the blanks around it is a lone backslash, and the blanks are all
behind it. -/
theorem trim_eq_backslash_iff {key : List Char} (hkey : Shielded '=' key)
    (hhead : ∀ c ∈ key.head?, isBlank c = false) :
    trim key = ['\\'] ↔
      ∃ blanks, blanks ≠ [] ∧ (∀ c ∈ blanks, isBlank c = true) ∧ key = '\\' :: blanks := by
  cases key with
  | nil => exact iff_of_false (by decide) (by simp)
  | cons c rest =>
    have hc : ¬ isBlank c = true := by simp [hhead c rfl]
    unfold trim
    rw [trimLeft_cons, if_neg hc, trimRight_cons, if_neg fun h => hc h.1]
    constructor
    · intro h
      obtain ⟨rfl, hrest⟩ := List.cons.inj h
      refine ⟨rest, ?_, trimRight_eq_nil_iff.mp hrest, rfl⟩
      -- a backslash without a blank behind it would have escaped the equals sign
      rintro rfl
      cases hkey with
      | plain hne _ _ => exact hne rfl
    · rintro ⟨blanks, -, hblanks, heq⟩
      obtain ⟨rfl, rfl⟩ := List.cons.inj heq
      rw [trimRight_eq_nil_iff.mpr hblanks]

/-- An entry is read with an empty key exactly if its key is a backslash before blanks. -/
theorem parseEntry_key_eq_empty_iff (htight : Tight text) (h : parseEntry text = .ok entry) :
    entry.1 = "" ↔ BlankKey text := by
  unfold parseEntry at h
  cases hsplit : splitOnceUnescaped '=' text with
  | none =>
    rw [hsplit] at h
    cases h
  | some found =>
    obtain ⟨key, value⟩ := found
    obtain ⟨rfl, hkey⟩ := (splitOnceUnescaped_eq_some_iff (by decide)).mp hsplit
    rw [hsplit] at h
    dsimp only at h
    split at h
    · cases h
    · next hne =>
      obtain rfl := Except.ok.inj h
      rw [List.isEmpty_iff] at hne
      have hempty : part key = "" ↔ trim key = ['\\'] := by
        unfold part
        rw [← String.toList_eq_nil_iff, String.toList_ofList, unescape_eq_nil_iff]
        exact or_iff_right hne
      have hhead : ∀ c ∈ key.head?, isBlank c = false := by
        intro c hc
        refine htight.head c ?_
        rw [List.head?_append, Option.mem_def.mp hc]
        rfl
      show part key = "" ↔ _
      rw [hempty, trim_eq_backslash_iff hkey hhead]
      constructor
      · rintro ⟨blanks, hsome, hblanks, rfl⟩
        exact ⟨blanks, value, hsome, hblanks, rfl⟩
      · rintro ⟨blanks, rest, hsome, hblanks, htext⟩
        -- the text is cut at its first separator, also where it is written in another way
        rw [htext, splitOnceUnescaped_append_sep (by decide) (shielded_blanks hsome hblanks)]
          at hsplit
        exact ⟨blanks, hsome, hblanks, (Prod.mk.inj (Option.some.inj hsplit)).1.symm⟩

theorem tight_of_mem_entryTexts (h : text ∈ entryTexts cs) : Tight text := by
  obtain ⟨piece, _, rfl⟩ := List.mem_map.mp (List.mem_filter.mp h).1
  exact tight_trim piece

theorem infix_of_mem_entryTexts (h : text ∈ entryTexts cs) : text <:+: cs := by
  obtain ⟨piece, hpiece, rfl⟩ := List.mem_map.mp (List.mem_filter.mp h).1
  have hcomma : ',' ≠ '\\' := by decide
  have hwhole : piece <:+: [','].intercalate (piecesUnescaped ',' cs) := infix_intercalate hpiece
  rw [(piecesUnescaped_spec hcomma cs).1] at hwhole
  exact (trim_isInfix piece).trans hwhole

theorem BlankKey.exists_isInfix (h : BlankKey text) : ∃ c, isBlank c = true ∧ ['\\', c] <:+: text := by
  obtain ⟨blanks, value, hne, hblanks, rfl⟩ := h
  cases blanks with
  | nil => exact absurd rfl hne
  | cons c rest =>
    exact ⟨c, hblanks c List.mem_cons_self, (List.prefix_append ['\\', c] _).isInfix⟩

/-- Of what is read from a text, a key is empty exactly if its entry begins with a backslash that
only blanks part from the equals sign; so none is if no backslash of the text stands before a
blank.  An entry whose key is nothing but blanks is never read. -/
theorem empty_key_iff (h : parse s = .ok d) :
    ∃ domain rest, splitOnceUnescaped ':' (trim s.toList) = some (domain, rest) ∧
      ((∃ entry ∈ d.entries, entry.1 = "") ↔ ∃ text ∈ entryTexts rest, BlankKey text) ∧
      (∀ text ∈ entryTexts rest, ∀ key value,
        splitOnceUnescaped '=' text = some (key, value) → trim key ≠ []) ∧
      ((∀ c, isBlank c = true → ¬ ['\\', c] <:+: s.toList) →
        ∀ entry ∈ d.entries, entry.1 ≠ "") := by
  unfold parse parseChars at h
  cases hsplit : splitOnceUnescaped ':' (trim s.toList) with
  | none =>
    rw [hsplit] at h
    cases h
  | some found =>
    obtain ⟨domain, rest⟩ := found
    rw [hsplit] at h
    obtain ⟨entries, hentries, hd⟩ := bind_eq_ok_iff.mp h
    obtain rfl := Except.ok.inj hd
    have hread : ∀ text ∈ entryTexts rest, ∃ entry ∈ entries, parseEntry text = .ok entry := by
      intro text htext
      obtain ⟨entry, hok⟩ := exists_of_mapM_eq_ok hentries htext
      exact ⟨entry, (mem_of_mapM_eq_ok hentries).mpr ⟨text, htext, hok⟩, hok⟩
    have hempty : (∃ entry ∈ entries, entry.1 = "") ↔ ∃ text ∈ entryTexts rest, BlankKey text := by
      constructor
      · rintro ⟨entry, hentry, hkey⟩
        obtain ⟨text, htext, hok⟩ := (mem_of_mapM_eq_ok hentries).mp hentry
        exact ⟨text, htext,
          (parseEntry_key_eq_empty_iff (tight_of_mem_entryTexts htext) hok).mp hkey⟩
      · rintro ⟨text, htext, hkey⟩
        obtain ⟨entry, hentry, hok⟩ := hread text htext
        exact ⟨entry, hentry,
          (parseEntry_key_eq_empty_iff (tight_of_mem_entryTexts htext) hok).mpr hkey⟩
    refine ⟨domain, rest, rfl, hempty, ?_, ?_⟩
    · intro text htext key value hfound hblank
      obtain ⟨entry, _, hok⟩ := hread text htext
      unfold parseEntry at hok
      rw [hfound] at hok
      dsimp only at hok
      rw [hblank] at hok
      cases hok
    · intro hplain entry hentry hkey
      obtain ⟨text, htext, hblank⟩ := hempty.mp ⟨entry, hentry, hkey⟩
      obtain ⟨c, hc, hcut⟩ := hblank.exists_isInfix
      obtain ⟨htrim, _⟩ := (splitOnceUnescaped_eq_some_iff (by decide)).mp hsplit
      have hrest : rest <:+: trim s.toList := by
        rw [htrim]
        exact ((List.suffix_cons _ rest).trans (List.suffix_append domain _)).isInfix
      refine hplain c hc ?_
      exact hcut.trans ((infix_of_mem_entryTexts htext).trans (hrest.trans (trim_isInfix _)))

/-- Two entries with a backslash before blanks in their keys.  The first has a letter before it,
which is left as its key. -/
theorem empty_key_iff_twoEntries :
    parse "edge:a\\ =1, \\ \t=2" = .ok ⟨"edge", [("a", "1"), ("", "2")]⟩ ∧
      ∃ domain rest, splitOnceUnescaped ':' "edge:a\\ =1, \\ \t=2".toList = some (domain, rest) ∧
        ∃ text ∈ entryTexts rest, BlankKey text := by
  have hread : parse "edge:a\\ =1, \\ \t=2" = .ok ⟨"edge", [("a", "1"), ("", "2")]⟩ := by rfl
  obtain ⟨domain, rest, hsplit, hempty, -⟩ := empty_key_iff hread
  exact ⟨hread, domain, rest, hsplit, hempty.mp ⟨("", "2"), by decide, rfl⟩⟩

/-- A text is read whose only entry has an empty key. -/
theorem reads_empty_key :
    parse "edge:\\ =x" = .ok ⟨"edge", [("", "x")]⟩ ∧
      ¬ ∀ s d, parse s = .ok d → ∀ entry ∈ d.entries, entry.1 ≠ "" := by
  have hread : parse "edge:\\ =x" = .ok ⟨"edge", [("", "x")]⟩ := by rfl
  exact ⟨hread, fun h => h _ _ hread ("", "x") List.mem_cons_self rfl⟩

end Descriptor

end Admission
