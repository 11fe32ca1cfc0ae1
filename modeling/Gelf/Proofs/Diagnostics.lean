import Gelf.Diagnostics
import Gelf.Proofs.Json.Accepted
import Gelf.Proofs.Record.Normal

/-!
# Lines of diagnostics

A fault is reported as one line, whatever the texts of its causes are: they are escaped, so that the
line ends where the report ends, and reading it gives their chain back.
-/

namespace Gelf

namespace Json

namespace Value

theorem eraseMembers_eq_map (ms : List (String × Value)) :
    eraseMembers ms = ms.map fun m => (m.1, m.2.eraseFloats) := by
  induction ms with
  | nil => rfl
  | cons m ms ih => rw [eraseMembers, ih, List.map_cons]

theorem exists_of_eraseFloats_eq_object {w : Value} {ms : List (String × Value)}
    (h : w.eraseFloats = .object ms) : ∃ ns, w = .object ns ∧ eraseMembers ns = ms := by
  cases w with
  | object ns => exact ⟨ns, rfl, Value.object.inj h⟩
  | _ => simp [eraseFloats] at h

theorem exists_of_eraseFloats_eq_real {w : Value} {x : FiniteFloat}
    (h : w.eraseFloats = (number (.real x)).eraseFloats) : ∃ y, w = .number (.real y) := by
  cases w with
  | number n =>
    cases n with
    | real y => exact ⟨y, rfl⟩
    | integer i => simp [eraseFloats, Number.eraseFloat] at h
  | _ => simp [eraseFloats] at h

/-- Members in front of one that may hold floats are the same, and so is its name. -/
theorem exists_of_eraseMembers_concat {ms ns : List (String × Value)} {name : String} {v : Value}
    (hms : MembersFloatFree ms) (h : eraseMembers ns = eraseMembers (ms ++ [(name, v)])) :
    ∃ w, ns = ms ++ [(name, w)] ∧ w.eraseFloats = v.eraseFloats := by
  rw [eraseMembers_eq_map, eraseMembers_eq_map, List.map_append, List.map_eq_append_iff] at h
  obtain ⟨front, last, rfl, hfront, hlast⟩ := h
  rw [← eraseMembers_eq_map, ← eraseMembers_eq_map] at hfront
  obtain rfl := eq_of_eraseMembers ms hms hfront
  obtain ⟨m, rfl, hm⟩ := List.map_eq_singleton_iff.1 hlast
  obtain ⟨hname, herase⟩ := Prod.mk.inj hm
  exact ⟨m.2, by rw [← show m.1 = name from hname], herase⟩

/-- What stands on a line of its own is read as it is read alone. -/
theorem read_line (v : Value) :
    (read (Text.utf8 (v.text ++ "\n"))).toOption = (read (Text.utf8 v.text)).toOption := by
  have hline : Grammar.IsText (v.text ++ "\n") v.tree := by
    refine ⟨v.chars ++ ['\n'], ['\n'], ?_, Grammar.derives_chars v _, .blank (by decide) .none⟩
    rw [String.toList_append, text, String.toList_ofList]
    exact .none
  have hfollows := follows_value maxDepth
  exact (hfollows.readAll hline).trans (hfollows.readAll (Grammar.isText_text v)).symm

end Value

end Json

namespace Report

open Json (Value)

/-- What a line says about a fault, in the order in which it is written. The time comes last. -/
def said (fault : Fault) : List (String × Value) :=
  [("error", .string (": ".intercalate (fault.message :: fault.causes))),
    ("kind", .string fault.kind), ("level", .string "warn"),
    ("message", .string "dropped GELF message"),
    ("target", .string "gelf_handler::diagnostics")]

theorem increasing_said (fault : Fault) (time : Value) :
    Increasing (said fault ++ [("timestamp", time)]) := by
  apply (Json.increasing_iff_map_fst _).2
  show List.Pairwise (· < ·) ["error", "kind", "level", "message", "target", "timestamp"]
  decide

theorem lineValue_eq (clock : Float) (fault : Fault) :
    lineValue clock fault = .object (said fault ++ [("timestamp", timeValue clock)]) := by
  rw [lineValue, Value.ofFields, Fault.chain_eq_intercalate]
  -- the members were given in another order
  have hsaid : FieldMap.ofList
      [("timestamp", timeValue clock), ("level", .string "warn"),
        ("target", .string diagnosticsTarget), ("message", .string droppedMessage),
        ("kind", .string fault.kind),
        ("error", .string (": ".intercalate (fault.message :: fault.causes)))] =
      ⟨said fault ++ [("timestamp", timeValue clock)], increasing_said fault _⟩ := by
    refine FieldMap.ext fun name => ?_
    rw [FieldMap.get?_ofList, FieldMap.get?]
    simp only [said, List.reverse_cons, List.reverse_nil, List.nil_append, List.cons_append,
      lookup_cons]
    grind [diagnosticsTarget, droppedMessage]
  rw [hsaid]

theorem timeValue_cases (clock : Float) :
    (clock.isFinite = true ∧ ∃ x, timeValue clock = .number (.real x)) ∨
      (clock.isFinite = false ∧ timeValue clock = .null) := by
  rw [timeValue, FiniteFloat.ofFloat?]
  split_ifs with h
  · exact .inl ⟨h, _, rfl⟩
  · exact .inr ⟨Bool.eq_false_iff.2 h, rfl⟩

/-- What a line is read as: what was said, and a time if the clock gave one. -/
theorem exists_read_lineValue (clock : Float) (fault : Fault) :
    ∃ time, Value.read (Text.utf8 (lineValue clock fault).text) =
        .ok (.object (said fault ++ [("timestamp", time)])) ∧
      ((clock.isFinite = true ∧ ∃ x, time = .number (.real x)) ∨
        (clock.isFinite = false ∧ time = .null)) := by
  have hscalar : (timeValue clock).Ordered ∧ (timeValue clock).depth = 0 := by
    rcases timeValue_cases clock with ⟨-, x, h⟩ | ⟨-, h⟩ <;>
    · rw [h]
      simp [Value.Ordered, Value.depth]
  have hordered : (lineValue clock fault).Ordered := by
    rw [lineValue_eq]
    exact ⟨increasing_said fault _, trivial, trivial, trivial, trivial, trivial, hscalar.1, trivial⟩
  have hdepth : (lineValue clock fault).depth ≤ Json.maxDepth := by
    rw [lineValue_eq]
    simp [said, Value.depth, Value.membersDepth, hscalar.2, Json.maxDepth]
  obtain ⟨w, hread, herase⟩ := Value.exists_read_text hordered hdepth
  rw [lineValue_eq, Value.eraseFloats] at herase
  obtain ⟨ns, rfl, hns⟩ := Value.exists_of_eraseFloats_eq_object herase
  have hsaid : Value.MembersFloatFree (said fault) :=
    ⟨trivial, trivial, trivial, trivial, trivial, trivial⟩
  obtain ⟨time, rfl, htime⟩ := Value.exists_of_eraseMembers_concat hsaid hns
  refine ⟨time, hread, ?_⟩
  rcases timeValue_cases clock with ⟨hfinite, x, h⟩ | ⟨hfinite, h⟩
  · rw [h] at htime
    exact .inl ⟨hfinite, Value.exists_of_eraseFloats_eq_real htime⟩
  · rw [h] at htime
    exact .inr ⟨hfinite, Value.eq_of_eraseFloats .null trivial htime⟩

/-- **One line for a fault.** Whatever texts a fault is made of, its line has no control character
before the one that ends it. Read as JSON, with its end or without, it is an object of six members.
They give the kind and the message of the fault with all causes behind it, the outermost first. -/
theorem line_reads_as_fault (clock : Float) (fault : Fault) :
    ∃ body time, ofFault .stderr clock fault = .line (body ++ "\n") ∧
      (∀ b ∈ Text.utf8 body, 0x20 ≤ b) ∧
      (∀ text ∈ [body, body ++ "\n"], Value.read (Text.utf8 text) = .ok (.object
        [("error", .string (": ".intercalate (fault.message :: fault.causes))),
          ("kind", .string fault.kind), ("level", .string "warn"),
          ("message", .string "dropped GELF message"),
          ("target", .string "gelf_handler::diagnostics"), ("timestamp", time)])) ∧
      ((clock.isFinite = true ∧ ∃ x, time = .number (.real x)) ∨
        (clock.isFinite = false ∧ time = .null)) := by
  obtain ⟨time, hread, htime⟩ := exists_read_lineValue clock fault
  refine ⟨(lineValue clock fault).text, time, rfl, ?_, ?_, htime⟩
  · intro b hb
    rw [Value.text, Json.utf8_ofList] at hb
    exact Json.Grammar.le_of_mem_octets (Json.Grammar.noControl_chars _) hb
  · have hline := Json.eq_ok_iff_toOption.2
      ((Value.read_line (lineValue clock fault)).trans (Json.eq_ok_iff_toOption.1 hread))
    intro text htext
    rcases List.mem_pair.1 htext with rfl | rfl
    · exact hread
    · exact hline

end Report

end Gelf
