import Gelf.Proofs.Encoder.RoundTrip
import Gelf.Proofs.Encoder.Slots
import Gelf.Proofs.Shipper.Budget

/-!
# The host of a record

A builder takes a blank source host for none and falls back to the machine, so an encoder has a host
that can be seen wherever the machine has one. The encoder in turn takes only an empty host of an
event for none, and one that is made of blanks goes through to the record.
-/

namespace Gelf

theorem Builder.blank_eq_false_of_host {builder : Builder} {name host : String}
    (hname : Text.blank name = false) (h : builder.host (.name name) = .ok host) :
    Text.blank host = false := by
  rw [Builder.host] at h
  split at h
  · rename_i source hsource
    cases h
    obtain ⟨-, hvisible⟩ := Option.filter_eq_some_iff.1 hsource
    simpa using hvisible
  · cases h
    exact hname

namespace Encoder

variable {encoder : Encoder} {event : Event}

/-- Only a host of the event itself can be blank, and no empty one. -/
theorem blank_hostOf_iff (hhost : Text.blank encoder.host = false) :
    Text.blank (encoder.hostOf event) = true ↔
      ∃ host, event.host = some host ∧ host ≠ "" ∧ Text.blank host = true := by
  rw [hostOf]
  cases event.host with
  | none => simp [hhost]
  | some host =>
    by_cases hempty : host = ""
    · simp [hempty, hhost]
    · simp [hempty]

/-- The host on the wire is the one that the encoder chose. -/
theorem exists_read_host {bytes : List UInt8} (h : encoder.encode event = .ok bytes) :
    ∃ r, Record.read bytes = .ok r ∧ r.host = encoder.hostOf event := by
  obtain ⟨written, r, hrecord, hread, hsame⟩ := exists_read_of_encode h
  obtain ⟨-, rfl⟩ := record_eq_ok_iff.1 hrecord
  exact ⟨r, hread, hsame.host⟩

end Encoder

namespace Shipper

variable {ids : IdSource} {codec : Codec} {limit : UInt64} {start shipper : Shipper} {name : String}

/-- **Hosts.** On a machine with a host name that can be seen, a shipper always has a host that can
be seen. The host of a record that it ships is blank exactly if the event brings one that is blank
without being empty. -/
theorem shipped_host_is_blank_iff (hname : Text.blank name = false)
    (hbuilt : IsBuilt (.name name) codec limit start) {outcomes : List (Except Fault Nat)}
    (hserves : start.Serves ids outcomes shipper) {event : Event} {bytes : List UInt8}
    (hencode : shipper.pipeline.encoder.encode event = .ok bytes) :
    Text.blank shipper.pipeline.encoder.host = false ∧
      ∃ r, Record.read bytes = .ok r ∧ (Text.blank r.host = true ↔
        ∃ host, event.host = some host ∧ host ≠ "" ∧ Text.blank host = true) := by
  obtain ⟨builder, -, hbuild, -⟩ := hbuilt.exists_build
  have hsame : shipper.pipeline = start.pipeline := congrArg Prod.fst hserves.setup_eq
  have hhost : Text.blank shipper.pipeline.encoder.host = false := by
    obtain ⟨host, hchosen, hencoder, -⟩ := Builder.exists_host_of_build hbuild
    rw [hsame, hencoder]
    exact Builder.blank_eq_false_of_host hname hchosen
  obtain ⟨r, hread, hchosen⟩ := Encoder.exists_read_host hencode
  refine ⟨hhost, r, hread, ?_⟩
  rw [hchosen, Encoder.blank_hostOf_iff hhost]

/-- A source host of a no-break space and an empty host of an event leave the name of the
machine. -/
theorem machine_names_the_host :
    let builder : Builder := { sourceHost := some "\u00a0" }
    let event := (Event.new 1.5 "up").withHost ""
    ∃ start bytes r, builder.direct (.name "web-1") ⟨"127.0.0.1", 12201⟩ .own = .ok start ∧
      start.pipeline.encoder.encode event = .ok bytes ∧ Record.read bytes = .ok r ∧
      Text.blank r.host = false := by
  intro builder event
  cases hbuilt : builder.direct (.name "web-1") ⟨"127.0.0.1", 12201⟩ .own with
  | error e => cases hbuilt
  | ok start =>
    have hblank : ¬ Text.blank event.shortMessage = true := by decide
    obtain ⟨bytes, hencode⟩ :=
      @Encoder.exists_encode_of_not_blank start.pipeline.encoder event hblank
    have hserves : start.Serves MessageId.ofNat [] start := .refl
    obtain ⟨-, r, hread, hiff⟩ :=
      shipped_host_is_blank_iff (by decide) (.direct hbuilt) hserves hencode
    refine ⟨start, bytes, r, rfl, hencode, hread, ?_⟩
    rw [← Bool.not_eq_true, hiff]
    rintro ⟨host, heq, hne, -⟩
    cases heq
    exact hne rfl

/-- A host of one space is shipped, although there is a source host. -/
theorem blank_host_of_an_event_is_shipped :
    let builder : Builder := { sourceHost := some "relay" }
    let event := (Event.new 1.5 "up").withHost " "
    ∃ start bytes r, builder.direct (.name "web-1") ⟨"127.0.0.1", 12201⟩ .own = .ok start ∧
      start.pipeline.encoder.encode event = .ok bytes ∧ Record.read bytes = .ok r ∧
      Text.blank r.host = true := by
  intro builder event
  cases hbuilt : builder.direct (.name "web-1") ⟨"127.0.0.1", 12201⟩ .own with
  | error e => cases hbuilt
  | ok start =>
    have hblank : ¬ Text.blank event.shortMessage = true := by decide
    obtain ⟨bytes, hencode⟩ :=
      @Encoder.exists_encode_of_not_blank start.pipeline.encoder event hblank
    obtain ⟨r, hread, hchosen⟩ := Encoder.exists_read_host hencode
    have hhost : start.pipeline.encoder.hostOf event = " " := by
      rw [Encoder.hostOf]
      exact if_neg (by decide)
    refine ⟨start, bytes, r, rfl, hencode, hread, ?_⟩
    rw [hchosen, hhost]
    decide

end Shipper

end Gelf
