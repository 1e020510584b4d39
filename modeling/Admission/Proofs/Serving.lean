import Admission.Proofs.Run
import Admission.Proofs.Watching

/-!
# Lines that say nothing

A session in use meets lines, and between them its stores are swept and its rule file is looked at.
A line that is blank or describes no operation leaves the session as it was, so a run with such
lines and a run without them stay in step: `run_deleted` says so of any machine and any events that
leave it alone, and `Session.void_lines_decide_nothing` of a session and its lines.

What a command prints is read off such a run: `splitLines_written` finds the lines of an input in
its bytes, `Occurrence.exists_texts` finds texts in the lines that come in, and
`Session.takeSteps_map` has a decision printed for each in turn, wherever lines are printed to.
Nothing here depends on how arguments, settings and rule sets are read and how decisions are
written.
-/

namespace Admission

/-! ## Events that leave a machine alone -/

section Deletion

variable {σ ε α : Type} {step : σ → ε → σ × α}

/-- The events of a marked list whose mark says to keep them. -/
def keptEvents (marked : List (ε × Bool)) : List ε := (marked.filter (·.2)).map (·.1)

/-- Events that leave every state alone can be deleted from a run: it ends the same, and the answers
to the events that are kept stay the same. -/
theorem run_deleted {marked : List (ε × Bool)}
    (hidle : ∀ x ∈ marked, x.2 = false → ∀ s, (step s x.1).1 = s) (s : σ) :
    run step s (keptEvents marked) =
      ((run step s (marked.map (·.1))).1,
        answersTo (·.2) marked (run step s (marked.map (·.1))).2) := by
  induction marked generalizing s with
  | nil => rfl
  | cons x rest ih =>
    obtain ⟨hx, hrest⟩ := List.forall_mem_cons.mp hidle
    unfold keptEvents at ih ⊢
    rw [List.map_cons, run_cons, answersTo_cons, List.filter_cons]
    cases hkept : x.2 with
    | true =>
      rw [if_pos rfl, if_pos rfl, List.map_cons, run_cons, ih hrest]
    | false =>
      -- the rest of the run starts where the deleted event found the machine
      rw [if_neg Bool.false_ne_true, if_neg Bool.false_ne_true, hx hkept s]
      exact ih hrest s

end Deletion

/-! ## Lines in bytes -/

/-- The bytes of a text. -/
def utf8 (text : String) : List UInt8 := text.toList.flatMap String.utf8EncodeChar

/-- The bytes of lines, each with a line feed at its end. -/
def written (lines : List String) : List UInt8 := lines.flatMap fun line => utf8 line ++ [10]

theorem lineText_utf8 (text : String) : lineText (utf8 text) = some text := by
  have hbytes : (utf8 text).toByteArray = text.toByteArray := by
    rw [← String.ofList_toList (s := text), String.toByteArray_ofList]
    simp [utf8, List.utf8Encode]
  unfold lineText
  rw [hbytes]
  exact fromUTF8?_toUTF8 text

theorem lineFeed_ne_ofNat {n : Nat} (hlow : 128 ≤ n) (hhigh : n < 256) :
    (10 : UInt8) ≠ .ofNat n := by
  intro h
  have hn : 10 = n % 256 := congrArg UInt8.toNat h
  omega

theorem lineFeed_not_mem_utf8EncodeChar {c : Char} (h : c ≠ '\n') :
    10 ∉ String.utf8EncodeChar c := by
  have hcode : c.toNat ≠ 10 := by
    intro hcode
    exact h (Char.ext (UInt32.toNat_inj.mp hcode))
  unfold String.utf8EncodeChar
  show 10 ∉ (if c.toNat ≤ 127 then _ else _)
  split
  · intro hmem
    have hbyte : 10 = c.toNat % 256 := congrArg UInt8.toNat (List.mem_singleton.mp hmem)
    omega
  · -- every byte of a longer encoding is at least 128
    repeat' split
    all_goals
      simp only [List.mem_cons, List.not_mem_nil, or_false, not_or]
      and_intros
      all_goals exact lineFeed_ne_ofNat (by omega) (by omega)

theorem lineFeed_not_mem_utf8 {text : String} (h : '\n' ∉ text.toList) : 10 ∉ utf8 text := by
  intro hmem
  obtain ⟨c, hc, hbyte⟩ := List.mem_flatMap.mp hmem
  refine lineFeed_not_mem_utf8EncodeChar ?_ hbyte
  rintro rfl
  exact h hc

theorem splitLines_cons (byte : UInt8) (bytes : List UInt8) :
    splitLines (byte :: bytes) = match splitLines bytes with
      | line :: rest => if byte = 10 then [] :: line :: rest else (byte :: line) :: rest
      | [] => if byte = 10 then [[]] else [[byte]] := rfl

theorem splitLines_lineFeed (bytes : List UInt8) :
    splitLines (10 :: bytes) = [] :: splitLines bytes := by
  rw [splitLines_cons]
  cases splitLines bytes <;> rfl

theorem splitLines_line {line : List UInt8} (h : 10 ∉ line) (bytes : List UInt8) :
    splitLines (line ++ 10 :: bytes) = line :: splitLines bytes := by
  induction line with
  | nil => exact splitLines_lineFeed bytes
  | cons byte line ih =>
    have hbyte := List.ne_of_not_mem_cons h
    have hline := List.not_mem_of_not_mem_cons h
    rw [List.cons_append, splitLines_cons, ih hline]
    exact if_neg (Ne.symm hbyte)

theorem splitLines_last {line : List UInt8} (h : 10 ∉ line) :
    splitLines line = if line = [] then [] else [line] := by
  induction line with
  | nil => rfl
  | cons byte line ih =>
    have hbyte := List.ne_of_not_mem_cons h
    have hline := List.not_mem_of_not_mem_cons h
    rw [splitLines_cons, ih hline]
    by_cases hnil : line = []
    · rw [if_pos hnil, hnil]
      exact if_neg (Ne.symm hbyte)
    · rw [if_neg hnil]
      exact if_neg (Ne.symm hbyte)

theorem utf8_eq_nil {text : String} : utf8 text = [] ↔ text = "" := by
  constructor
  · intro h
    have htext := lineText_utf8 text
    rw [h, ← show utf8 "" = [] from rfl, lineText_utf8] at htext
    exact (Option.some.inj htext).symm
  · rintro rfl
    rfl

/-- The lines of an input are found again in its bytes, with or without a line feed at the end. -/
theorem splitLines_written {lines : List String} {last : String}
    (hlines : ∀ line ∈ lines, '\n' ∉ line.toList) (hlast : '\n' ∉ last.toList) :
    splitLines (written lines ++ utf8 last) =
      (lines ++ if last = "" then [] else [last]).map utf8 := by
  induction lines with
  | nil =>
    show splitLines (utf8 last) = _
    rw [splitLines_last (lineFeed_not_mem_utf8 hlast)]
    by_cases hempty : last = ""
    · rw [if_pos (utf8_eq_nil.mpr hempty), if_pos hempty]
      rfl
    · rw [if_neg (mt utf8_eq_nil.mp hempty), if_neg hempty]
      rfl
  | cons line lines ih =>
    obtain ⟨hline, hrest⟩ := List.forall_mem_cons.mp hlines
    have hbytes : written (line :: lines) ++ utf8 last =
        utf8 line ++ 10 :: (written lines ++ utf8 last) := by
      simp [written]
    rw [hbytes, splitLines_line (lineFeed_not_mem_utf8 hline), ih hrest]
    rfl

/-! ## Occurrences -/

/-- The input that a decision is due about: the trimmed line, unless the line is blank. -/
def lineInput? (text : String) : Option String :=
  if (trim text.toList).isEmpty then none else some (String.ofList (trim text.toList))

namespace Occurrence

/-- A line that is blank or describes no operation. -/
inductive Void : Occurrence String → Prop where
  | blank {text : String} {readings : Readings} (h : lineInput? text = none) :
      Void (line text readings)
  | malformed {text input : String} {readings : Readings} {cause : Malformed}
      (h : lineInput? text = some input) (hparse : Descriptor.parse input = .error cause) :
      Void (line text readings)

theorem text?_map_utf8 (e : Occurrence String) : (e.map utf8).text? = some e := by
  cases e with
  | line text readings =>
    show (lineText (utf8 text)).map _ = _
    rw [lineText_utf8]
    rfl
  | sweepBuckets now => rfl
  | sweepRules now => rfl
  | look content now => rfl

/-- If the lines that come in were written as texts, all that happens can be told in texts. -/
theorem exists_texts {events : List (Occurrence (List UInt8))} {lines : List String}
    (h : events.filterMap line? = lines.map utf8) :
    ∃ texts : List (Occurrence String), texts.map (map utf8) = events ∧
      texts.filterMap line? = lines := by
  induction events generalizing lines with
  | nil => exact ⟨[], rfl, (List.map_eq_nil_iff.mp h.symm).symm⟩
  | cons e rest ih =>
    cases e with
    | line bytes readings =>
      obtain ⟨text, more, rfl, rfl, hmore⟩ := List.map_eq_cons_iff.mp h.symm
      obtain ⟨texts, rfl, rfl⟩ := ih hmore.symm
      exact ⟨line text readings :: texts, rfl, rfl⟩
    | sweepBuckets now =>
      obtain ⟨texts, rfl, hlines⟩ := ih h
      exact ⟨sweepBuckets now :: texts, rfl, hlines⟩
    | sweepRules now =>
      obtain ⟨texts, rfl, hlines⟩ := ih h
      exact ⟨sweepRules now :: texts, rfl, hlines⟩
    | look content now =>
      obtain ⟨texts, rfl, hlines⟩ := ih h
      exact ⟨look content now :: texts, rfl, hlines⟩

end Occurrence

namespace Gate

variable {α : Type} [Amount α] {input : String} {cause : Malformed}

theorem decideLine_eq (g : Gate α) (text : String) (readings : Readings) :
    g.decideLine text readings = match lineInput? text with
      | none => (g, none)
      | some input => ((g.decide input readings).1, some (g.decide input readings).2) := by
  unfold decideLine lineInput?
  dsimp only
  cases (trim text.toList).isEmpty <;> rfl

theorem input_decide (g : Gate α) (input : String) (readings : Readings) :
    (g.decide input readings).2.input = input := by
  unfold decide
  split
  · rfl
  · split <;> rfl

theorem decide_malformed (g : Gate α) (h : Descriptor.parse input = .error cause)
    (readings : Readings) :
    g.decide input readings =
      (g, ⟨input, some (Fault.configuration (.descriptor cause)).message⟩) := by
  unfold decide
  rw [h]

end Gate

/-! ## Sessions -/

namespace Session

section Meeting

variable [RuleReader] {s : Session} {text input : String} {cause : Malformed} {readings : Readings}

/-- The decisions of a run, in order. -/
def decisions (s : Session) (events : List (Occurrence String)) : List Decision :=
  (run meet s events).2.filterMap id

theorem meet_line (s : Session) (text : String) (readings : Readings) :
    s.meet (.line text readings) =
      ({ s with gate := (s.gate.decideLine text readings).1 },
        (s.gate.decideLine text readings).2) := rfl

theorem meet_line_of_blank (h : lineInput? text = none) :
    s.meet (.line text readings) = (s, none) := by
  rw [meet_line, Gate.decideLine_eq, h]

theorem meet_line_of_input (h : lineInput? text = some input) :
    s.meet (.line text readings) =
      ({ s with gate := (s.gate.decide input readings).1 },
        some (s.gate.decide input readings).2) := by
  rw [meet_line, Gate.decideLine_eq, h]

theorem meet_line_of_malformed (h : lineInput? text = some input)
    (hparse : Descriptor.parse input = .error cause) :
    s.meet (.line text readings) =
      (s, some ⟨input, some (Fault.configuration (.descriptor cause)).message⟩) := by
  rw [meet_line_of_input h, Gate.decide_malformed _ hparse]

/-- A line that is blank or describes no operation leaves the session alone. -/
theorem meet_of_void {e : Occurrence String} (h : e.Void) (s : Session) : (s.meet e).1 = s := by
  cases h with
  | blank h => rw [meet_line_of_blank h]
  | malformed h hparse => rw [meet_line_of_malformed h hparse]

/-- A decision is made where one is due, about its input. -/
theorem input_meet (s : Session) (e : Occurrence String) :
    (s.meet e).2.map Decision.input = e.line?.bind lineInput? := by
  cases e with
  | line text readings =>
    show _ = lineInput? text
    cases h : lineInput? text with
    | none => rw [meet_line_of_blank h]; rfl
    | some input =>
      rw [meet_line_of_input h]
      exact congrArg some (Gate.input_decide s.gate input readings)
  | sweepBuckets now => rfl
  | sweepRules now => rfl
  | look content now => rfl

theorem decisions_cons (s : Session) (e : Occurrence String) (events : List (Occurrence String)) :
    s.decisions (e :: events) = (s.meet e).2.toList ++ (s.meet e).1.decisions events := by
  unfold decisions
  rw [run_cons, List.filterMap_cons]
  cases (s.meet e).2 <;> rfl

theorem input_decisions (s : Session) (events : List (Occurrence String)) :
    (s.decisions events).map Decision.input =
      (events.filterMap Occurrence.line?).filterMap lineInput? := by
  rw [List.filterMap_filterMap]
  induction events generalizing s with
  | nil => rfl
  | cons e rest ih =>
    rw [decisions_cons, List.map_append, ih, List.filterMap_cons, ← input_meet s e]
    cases (s.meet e).2 <;> rfl

end Meeting

theorem proceed_map [Formats] (s : Session) (e : Occurrence String) :
    s.proceed (e.map utf8) = some ((s.meet e).1, (s.meet e).2.map Formats.decision) := by
  unfold proceed
  rw [Occurrence.text?_map_utf8]
  rfl

/-- Where lines were written as texts, all steps print the decisions of the session, one after
another, whatever it takes to print a line. -/
theorem takeSteps_map [Formats] {m : Type → Type} [Monad m] [LawfulMonad m]
    (print : String → m Unit) (s : Session) (events : List (Occurrence String)) :
    s.takeSteps print (events.map (.map utf8)) = do
      (s.decisions events).forM fun decision => print (Formats.decision decision)
      return some (run meet s events).1 := by
  induction events generalizing s with
  | nil => exact (pure_bind (m := m) PUnit.unit fun _ => pure (some s)).symm
  | cons e rest ih =>
    rw [List.map_cons, takeSteps, proceed_map, decisions_cons, run_cons]
    cases (s.meet e).2 with
    | none => exact ih _
    | some decision =>
      show (print (Formats.decision decision) >>= fun _ => _) = _
      rw [ih]
      exact (bind_assoc _ _ _).symm

end Session

/-- Lines that are put down one after another stand there in order. -/
theorem run_forM_put {α : Type} (write : α → String) (xs : List α) (lines : List String) :
    (xs.forM fun x => (modify fun lines => lines ++ [write x] : StateM (List String) Unit)).run
      lines = ((), lines ++ xs.map write) := by
  induction xs generalizing lines with
  | nil => exact congrArg (Prod.mk ()) (List.append_nil lines).symm
  | cons x rest ih =>
    refine (ih (lines ++ [write x])).trans ?_
    rw [List.append_assoc]
    rfl

/-- A command whose lines were written as texts ends well and prints the decisions of its
session. -/
theorem Command.serve_map [Formats] (s : Session) (events : List (Occurrence String)) :
    serve s (events.map (.map utf8)) = ⟨0, (s.decisions events).map Formats.decision⟩ := by
  unfold serve
  dsimp only
  rw [Session.takeSteps_map, StateT.run_bind, run_forM_put]
  rfl

namespace Session

/-- **Lines that say nothing decide nothing.** This holds however arguments, settings and rule sets
are read and decisions are written.  A command whose session starts writes its decisions as they are
made, whatever its lines are, whatever the readings of the clock at each of them, and whatever
sweeps and looks at the rule file come in between; so does the loop that it runs, wherever lines are
printed to.  There is one decision for each line that is not blank, in order and about the trimmed
line.  A line that describes no operation is denied and leaves the session alone.  Deleting lines
that are blank or describe no operation from a run, whatever else happens in it, deletes the answers
to them and leaves the other answers, and the session at the end, as they were. -/
theorem void_lines_decide_nothing [Formats] (s : Session) :
    (∀ read environment args arguments, Formats.arguments args = .ok arguments →
      Session.start (m := Id) read environment arguments = .ok s →
      ∀ lines last events, (∀ line ∈ lines ++ [last], '\n' ∉ line.toList) →
        events.filterMap Occurrence.line? = splitLines (written lines ++ utf8 last) →
        ∃ texts : List (Occurrence String), texts.map (.map utf8) = events ∧
          texts.filterMap Occurrence.line? = (lines ++ if last = "" then [] else [last]) ∧
          Command.runOn read environment args events =
            ⟨0, (s.decisions texts).map Formats.decision⟩) ∧
    (∀ {m : Type → Type} [Monad m] [LawfulMonad m] (print : String → m Unit) events,
      s.takeSteps print (events.map (.map utf8)) = do
        (s.decisions events).forM fun decision => print (Formats.decision decision)
        return some (run meet s events).1) ∧
    (∀ events, (s.decisions events).map Decision.input =
      (events.filterMap Occurrence.line?).filterMap lineInput?) ∧
    (∀ text readings input cause, lineInput? text = some input →
      Descriptor.parse input = .error cause →
      s.meet (.line text readings) =
        (s, some ⟨input, some (Fault.configuration (.descriptor cause)).message⟩)) ∧
    ∀ marked : List (Occurrence String × Bool), (∀ x ∈ marked, x.2 = false → x.1.Void) →
      let all := run meet s (marked.map (·.1))
      run meet s (keptEvents marked) = (all.1, answersTo (·.2) marked all.2) := by
  refine ⟨?_, ?_, ?_, ?_, ?_⟩
  · intro read environment args arguments hargs hstart lines last events h hread
    obtain ⟨hlines, hlast⟩ := List.forall_mem_append.mp h
    rw [splitLines_written hlines (hlast last List.mem_cons_self)] at hread
    obtain ⟨texts, rfl, htexts⟩ := Occurrence.exists_texts hread
    refine ⟨texts, rfl, htexts, ?_⟩
    unfold Command.runOn
    rw [hargs]
    dsimp only
    rw [hstart]
    exact Command.serve_map s texts
  · exact fun print events => takeSteps_map print s events
  · exact s.input_decisions
  · intro text readings input cause h hparse
    exact meet_line_of_malformed h hparse
  · intro marked hvoid
    refine run_deleted ?_ s
    intro x hx hdeleted t
    exact meet_of_void (hvoid x hx hdeleted) t

/-- A blank line and one with an empty key, between two lines that describe an operation.  The clock
goes on while the last of them is asked about. -/
def interrupted : List (Occurrence String × Bool) :=
  [(.line "edge:user=1" (.frozen ⟨0⟩), true), (.line " " (.frozen ⟨1⟩), false),
    (.line "edge:=x " (.frozen ⟨2⟩), false), (.sweepRules ⟨3⟩, true), (.look none ⟨3⟩, true),
    (.line " edge:user=1" ⟨⟨4⟩, ⟨5⟩, ⟨6⟩⟩, true)]

theorem void_lines_decide_nothing_interrupted :
    let read := fun _ => FileContent.ofText "rules:\n  - name: api"
    let args := ["--rules", "rules.yaml"]
    let events := (interrupted.map (·.1)).map (.map utf8)
    ∃ s arguments, Formats.arguments args = .ok arguments ∧
      Session.start (m := Id) read [] arguments = .ok s ∧
      (∃ texts : List (Occurrence String), texts.map (.map utf8) = events ∧
        texts.filterMap Occurrence.line? =
          ["edge:user=1", " ", "edge:=x ", " edge:user=1"] ∧
        Command.runOn read [] args events = ⟨0, (s.decisions texts).map Formats.decision⟩) ∧
      (s.decisions (interrupted.map (·.1))).map Decision.input =
        ["edge:user=1", "edge:=x", "edge:user=1"] ∧
      (s.meet (.line "edge:=x " (.frozen ⟨2⟩))).1 = s ∧
      run meet s [.line "edge:user=1" (.frozen ⟨0⟩), .sweepRules ⟨3⟩, .look none ⟨3⟩,
          .line " edge:user=1" ⟨⟨4⟩, ⟨5⟩, ⟨6⟩⟩] =
        ((run meet s (interrupted.map (·.1))).1,
          answersTo (·.2) interrupted (run meet s (interrupted.map (·.1))).2) := by
  intro read args events
  have hparse : Descriptor.parse "edge:=x" = .error (.emptyKey "=x") := by
    rfl
  have hargs : (Formats.arguments args).toOption = some ⟨none, some "rules.yaml", false⟩ := by
    decide +kernel
  have hstarted : (Session.start (m := Id) read []
      ⟨none, some "rules.yaml", false⟩).toOption.isSome = true := by
    decide +kernel
  have hread : events.filterMap Occurrence.line? =
      splitLines (written ["edge:user=1", " ", "edge:=x "] ++ utf8 " edge:user=1") := by
    decide +kernel
  cases hparsed : Formats.arguments args with
  | error refusal =>
    rw [hparsed] at hargs
    cases hargs
  | ok arguments =>
    rw [hparsed] at hargs
    cases hargs
    cases hstart : Session.start (m := Id) read [] ⟨none, some "rules.yaml", false⟩ with
    | error fault =>
      rw [hstart] at hstarted
      cases hstarted
    | ok s =>
      obtain ⟨hprinted, _, hinputs, hmalformed, hdeleted⟩ := void_lines_decide_nothing s
      refine ⟨s, _, rfl, hstart, ?_, ?_, ?_, ?_⟩
      · exact hprinted read [] args _ hparsed hstart ["edge:user=1", " ", "edge:=x "]
          " edge:user=1" events (by decide) hread
      · rw [hinputs]
        rfl
      · rw [hmalformed "edge:=x " (.frozen ⟨2⟩) "edge:=x" _ rfl hparse]
      · have hblank : Occurrence.Void (.line " " (.frozen ⟨1⟩)) := .blank rfl
        have hempty : Occurrence.Void (.line "edge:=x " (.frozen ⟨2⟩)) := .malformed rfl hparse
        refine hdeleted interrupted ?_
        simp [interrupted, hblank, hempty]

end Session

end Admission
