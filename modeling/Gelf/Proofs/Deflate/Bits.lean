import Gelf.Deflate.Bits
import Mathlib.Data.Nat.Bitwise

/-!
# What readers take off the front

A reader takes some bits off the front of what is left to read, gives something for them, and leaves
the rest. Readers in a row take what they take one after another. Bits that were packed into octets
are read from these octets, and what stands behind the octets is left.
-/

namespace Gelf.Deflate

/-! ### Numbers as bits -/

@[simp]
theorem length_numberBits (n k : Nat) : (numberBits n k).length = n := by
  induction n generalizing k with
  | zero => rfl
  | succ n ih => rw [numberBits, List.length_cons, ih]

@[simp]
theorem length_codeBits (n code : Nat) : (codeBits n code).length = n := by
  induction n with
  | zero => rfl
  | succ n ih => rw [codeBits, List.length_cons, ih]

theorem toNat_mod_two_add (k : Nat) : (decide (k % 2 = 1)).toNat + 2 * (k / 2) = k := by
  rcases Nat.mod_two_eq_zero_or_one k with h | h
  · simp [h]
    omega
  · simp [h]
    omega

theorem ofBits_numberBits {n k : Nat} (h : k < 2 ^ n) : ofBits (numberBits n k) = k := by
  induction n generalizing k with
  | zero =>
    rw [numberBits, ofBits]
    omega
  | succ n ih =>
    rw [numberBits, ofBits, ih (by omega), toNat_mod_two_add]

theorem ofBits_lt (bits : List Bool) : ofBits bits < 2 ^ bits.length := by
  induction bits with
  | nil => exact Nat.one_pos
  | cons bit bits ih =>
    have hbit := bit.toNat_lt
    rw [ofBits, List.length_cons, Nat.pow_succ]
    omega

theorem numberBits_ofBits (bits : List Bool) (n : Nat) :
    numberBits (bits.length + n) (ofBits bits) = bits ++ List.replicate n false := by
  induction bits with
  | nil =>
    rw [List.length_nil, Nat.zero_add, List.nil_append, ofBits]
    induction n with
    | zero => rfl
    | succ n ih => exact congrArg _ ih
  | cons bit bits ih =>
    have hhalf : (bit.toNat + 2 * ofBits bits) / 2 = ofBits bits := by
      have hbit := bit.toNat_lt
      omega
    have hfirst : decide ((bit.toNat + 2 * ofBits bits) % 2 = 1) = bit := by
      rw [Nat.add_mul_mod_self_left]
      cases bit <;> rfl
    rw [List.length_cons, Nat.add_right_comm, numberBits, ofBits, hhalf, hfirst, ih,
      List.cons_append]

/-! ### Octets as bits -/

def octetBits (bytes : List UInt8) : List Bool := bytes.flatMap fun b => numberBits 8 b.toNat

theorem octetBits_append (bytes bytes' : List UInt8) :
    octetBits (bytes ++ bytes') = octetBits bytes ++ octetBits bytes' :=
  List.flatMap_append

theorem octetBits_cons (b : UInt8) (bytes : List UInt8) :
    octetBits (b :: bytes) = numberBits 8 b.toNat ++ octetBits bytes :=
  List.flatMap_cons

@[simp]
theorem length_octetBits (bytes : List UInt8) : (octetBits bytes).length = 8 * bytes.length := by
  induction bytes with
  | nil => rfl
  | cons b bytes ih =>
    rw [octetBits_cons, List.length_append, length_numberBits, ih, List.length_cons]
    omega

theorem octetBits_inj {bytes bytes' : List UInt8} (h : octetBits bytes = octetBits bytes') :
    bytes = bytes' := by
  induction bytes generalizing bytes' with
  | nil =>
    have hlength := congrArg List.length h
    rw [length_octetBits, length_octetBits, List.length_nil] at hlength
    exact (List.eq_nil_of_length_eq_zero (by omega)).symm
  | cons b bytes ih =>
    cases bytes' with
    | nil =>
      have hlength := congrArg List.length h
      rw [length_octetBits, length_octetBits, List.length_nil, List.length_cons] at hlength
      omega
    | cons b' bytes' =>
      rw [octetBits_cons, octetBits_cons] at h
      obtain ⟨hfirst, hrest⟩ := List.append_inj h (by simp)
      have hoctet := congrArg ofBits hfirst
      rw [ofBits_numberBits b.toNat_lt, ofBits_numberBits b'.toNat_lt] at hoctet
      rw [UInt8.toNat_inj.1 hoctet, ih hrest]

/-- Packed bits are the bits of the octets, up to the zeros that fill up the last one. -/
theorem exists_octetBits_pack (out : Array UInt8) (bits : List Bool) :
    ∃ m < 8, octetBits (pack out bits).toList =
      octetBits out.toList ++ (bits ++ List.replicate m false) := by
  induction out, bits using pack.induct with
  | case1 out => exact ⟨0, by omega, by simp [pack]⟩
  | case2 out bit rest ih =>
    obtain ⟨m, hm, heq⟩ := ih
    have hlength : (bit :: rest.take 7).length ≤ 8 := by
      rw [List.length_cons, List.length_take]
      omega
    have hoctet : octetBits [.ofNat (ofBits (bit :: rest.take 7))] =
        bit :: rest.take 7 ++ List.replicate (8 - (bit :: rest.take 7).length) false := by
      have hlt : ofBits (bit :: rest.take 7) < 2 ^ 8 :=
        (ofBits_lt _).trans_le (Nat.pow_le_pow_right Nat.two_pos hlength)
      rw [octetBits_cons, UInt8.toNat_ofNat_of_lt' hlt, ← numberBits_ofBits,
        Nat.add_sub_of_le hlength]
      exact List.append_nil _
    rw [pack, heq, Array.toList_push, octetBits_append, hoctet]
    by_cases hfull : 7 ≤ rest.length
    · have hnone : 8 - (bit :: rest.take 7).length = 0 := by
        rw [List.length_cons, List.length_take]
        omega
      refine ⟨m, hm, ?_⟩
      rw [hnone, List.replicate_zero, List.append_nil, List.append_assoc, List.cons_append,
        ← List.append_assoc (rest.take 7), List.take_append_drop, List.cons_append]
    · have hdrop : rest.drop 7 = [] := List.drop_of_length_le (by omega)
      have htake : rest.take 7 = rest := List.take_of_length_le (by omega)
      rw [hdrop, pack, Array.toList_push, octetBits_append, hoctet] at heq
      have hm' : m = 0 := by
        have hcount := congrArg List.length heq
        simp only [List.length_append, List.length_replicate, List.length_nil] at hcount
        omega
      refine ⟨8 - (bit :: rest).length, by rw [List.length_cons]; omega, ?_⟩
      rw [hdrop, htake, hm', List.replicate_zero, List.append_nil, List.append_nil]

/-! ### Readers -/

/-- What is left to read, bit by bit. -/
def Bits.toList (s : Bits) : List Bool := s.pending ++ octetBits s.rest

/-- In front of whole octets there are fewer bits than one more octet has. -/
theorem Bits.rest_eq {s : Bits} {padding : List Bool} {bytes : List UInt8}
    (h : s.toList = padding ++ octetBits bytes) (hpadding : padding.length < 8) :
    s.rest = bytes := by
  have hpartial := s.isPartial
  have hlength := congrArg List.length h
  simp only [Bits.toList, List.length_append, length_octetBits] at hlength
  exact octetBits_inj (List.append_inj h (by omega)).2

/-- The reader gives `a` for some bits, whatever comes behind them. -/
def Reads {α : Type} (read : Reader α) (bits : List Bool) (a : α) : Prop :=
  ∀ s t, s.toList = bits ++ t → ∃ s', read s = some (a, s') ∧ s'.toList = t

namespace Reads

variable {α β : Type} {read : Reader α} {next : α → Reader β} {bits bits' : List Bool} {a : α}
  {b : β}

theorem pure (a : α) : Reads (Pure.pure a) [] a := by
  intro s t h
  exact ⟨s, rfl, h⟩

theorem lift {answer : Option α} (h : answer = some a) : Reads (liftM answer) [] a := by
  subst h
  intro s t h
  exact ⟨s, rfl, h⟩

theorem bind_lift {answer : Option α} (h : answer = some a) (hnext : Reads (next a) bits b) :
    Reads (liftM answer >>= next) bits b := by
  subst h
  exact hnext

theorem bind (hread : Reads read bits a) (hnext : Reads (next a) bits' b) :
    Reads (read >>= next) (bits ++ bits') b := by
  intro s t h
  rw [List.append_assoc] at h
  obtain ⟨s', hs', hleft⟩ := hread s _ h
  obtain ⟨s'', hs'', hleft'⟩ := hnext s' t hleft
  refine ⟨s'', ?_, hleft'⟩
  simp only [Bind.bind, StateT.bind, hs', Option.bind, hs'']

/-- What a reader gives may be turned into something else. -/
theorem bind_pure (hread : Reads read bits a) (f : α → β) :
    Reads (read >>= fun a => Pure.pure (f a)) bits (f a) := by
  have hall : Reads (read >>= fun a => Pure.pure (f a)) (bits ++ []) (f a) :=
    hread.bind (.pure (f a))
  rwa [List.append_nil] at hall

theorem bit (b : Bool) : Reads Reader.bit [b] b := by
  rintro ⟨pending, rest, hpartial⟩ t h
  cases pending with
  | cons bit pending =>
    obtain ⟨rfl, rfl⟩ := List.cons.inj h
    exact ⟨_, rfl, rfl⟩
  | nil =>
    cases rest with
    | nil => cases h
    | cons octet rest =>
      obtain ⟨rfl, rfl⟩ := List.cons.inj h
      exact ⟨_, rfl, rfl⟩

theorem number {n k : Nat} (h : k < 2 ^ n) : Reads (Reader.number n) (numberBits n k) k := by
  induction n generalizing k with
  | zero =>
    obtain rfl : k = 0 := by omega
    exact .pure 0
  | succ n ih =>
    have hhalf : k / 2 < 2 ^ n := by omega
    have hall : Reads (Reader.number (n + 1)) (decide (k % 2 = 1) :: numberBits n (k / 2))
        ((decide (k % 2 = 1)).toNat + 2 * (k / 2)) :=
      (bit _).bind ((ih hhalf).bind_pure _)
    rwa [toNat_mod_two_add] at hall

end Reads

end Gelf.Deflate
