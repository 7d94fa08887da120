import Mathlib.Algebra.Group.Nat.Defs
import Mathlib.Data.List.Basic
import Mathlib.Data.List.Induction

/-! Decoders of a stream, and what it means that they read an encoding back. -/

namespace Library.Codec

variable {β ε α γ : Type}

abbrev Decoder (β ε α : Type) := StateT (List β) (Except ε) α

/-- The decoder takes `encoded` off the front of any stream and makes `value` of it. -/
def Reads (decoder : Decoder β ε α) (encoded : List β) (value : α) : Prop :=
  ∀ rest, decoder.run (encoded ++ rest) = .ok (value, rest)

theorem reads_pure (value : α) : Reads (pure value : Decoder β ε α) [] value := fun _ => rfl

theorem Reads.run_bind {decoder : Decoder β ε α} {encoded : List β} {value : α}
    (reads : Reads decoder encoded value) (next : α → Decoder β ε γ) (rest : List β) :
    (decoder >>= next).run (encoded ++ rest) = (next value).run rest := by
  rw [StateT.run_bind, reads rest]
  rfl

theorem Reads.bind {decoder : Decoder β ε α} {next : α → Decoder β ε γ} {encoded later : List β}
    {value : α} {result : γ} (first : Reads decoder encoded value)
    (second : Reads (next value) later result) :
    Reads (decoder >>= next) (encoded ++ later) result := by
  intro rest
  rw [List.append_assoc, first.run_bind next]
  exact second rest

theorem Reads.map {decoder : Decoder β ε α} {encoded : List β} {value : α}
    (reads : Reads decoder encoded value) (convert : α → γ) :
    Reads (decoder >>= fun result => pure (convert result)) encoded (convert value) := by
  rw [← List.append_nil encoded]
  exact reads.bind (reads_pure (convert value))

theorem Reads.unique {decoder : Decoder β ε α} {encoded : List β} {first second : α}
    (one : Reads decoder encoded first) (other : Reads decoder encoded second) :
    first = second := by
  have same := (one []).symm.trans (other [])
  exact (Prod.mk.inj (Except.ok.inj same)).1

def repeated (decoder : Decoder β ε α) : Nat → Decoder β ε (List α)
  | 0 => pure []
  | count + 1 => do
      let value ← decoder
      let values ← repeated decoder count
      pure (value :: values)

theorem reads_repeated (decoder : Decoder β ε α) (encode : α → List β) (values : List α)
    (each : ∀ value ∈ values, Reads decoder (encode value) value) :
    Reads (repeated decoder values.length) (values.flatMap encode) values := by
  induction values with
  | nil => exact reads_pure []
  | cons value values ih =>
      have later := ih (fun next member => each next (List.mem_cons_of_mem _ member))
      exact (each value List.mem_cons_self).bind (later.map (value :: ·))

/-! What a run says about the stream it was given. -/

/-- The decoder takes nothing but encodings off the stream. -/
def Canonical (decoder : Decoder β ε α) (encode : α → List β) : Prop :=
  ∀ stream value rest, decoder.run stream = .ok (value, rest) → stream = encode value ++ rest

/-- The decoder fails in no other way. -/
def FailsOnly (decoder : Decoder β ε α) (Failure : ε → Prop) : Prop :=
  ∀ stream failure, decoder.run stream = .error failure → Failure failure

section Runs

variable {decoder : Decoder β ε α} {next : α → Decoder β ε γ} {stream : List β}

theorem run_bind_ok {result : γ × List β} (ran : (decoder >>= next).run stream = .ok result) :
    ∃ value rest, decoder.run stream = .ok (value, rest) ∧ (next value).run rest = .ok result := by
  rw [StateT.run_bind] at ran
  cases first : decoder.run stream with
  | error failure =>
      rw [first] at ran
      cases ran
  | ok pair =>
      rw [first] at ran
      exact ⟨pair.1, pair.2, rfl, ran⟩

theorem run_bind_error {failure : ε} (ran : (decoder >>= next).run stream = .error failure) :
    decoder.run stream = .error failure ∨
      ∃ value rest, decoder.run stream = .ok (value, rest) ∧
        (next value).run rest = .error failure := by
  rw [StateT.run_bind] at ran
  cases first : decoder.run stream with
  | error other =>
      rw [first] at ran
      cases ran
      left
      rfl
  | ok pair =>
      rw [first] at ran
      right
      exact ⟨pair.1, pair.2, rfl, ran⟩

end Runs

theorem Canonical.map {decoder : Decoder β ε α} {encode : α → List β}
    (canonical : Canonical decoder encode) (convert : α → γ) (encodeResult : γ → List β)
    (same : ∀ value, encodeResult (convert value) = encode value) :
    Canonical (decoder >>= fun value => pure (convert value)) encodeResult := by
  intro stream result rest ran
  obtain ⟨value, _, first, last⟩ := run_bind_ok ran
  cases last
  rw [same, ← canonical stream value rest first]

theorem FailsOnly.map {decoder : Decoder β ε α} {Failure : ε → Prop}
    (only : FailsOnly decoder Failure) (convert : α → γ) :
    FailsOnly (decoder >>= fun value => pure (convert value)) Failure := by
  intro stream failure ran
  rcases run_bind_error ran with first | ⟨_, _, _, last⟩
  · exact only stream failure first
  · cases last

theorem Canonical.repeated {decoder : Decoder β ε α} {encode : α → List β}
    (canonical : Canonical decoder encode) (count : Nat) (stream : List β) (values : List α)
    (rest : List β) (ran : (repeated decoder count).run stream = .ok (values, rest)) :
    values.length = count ∧ stream = values.flatMap encode ++ rest := by
  induction count generalizing stream values with
  | zero =>
      cases ran
      exact ⟨rfl, rfl⟩
  | succ count ih =>
      obtain ⟨value, afterFirst, first, ran⟩ := run_bind_ok ran
      obtain ⟨others, afterAll, later, last⟩ := run_bind_ok ran
      cases last
      obtain ⟨length, bytes⟩ := ih afterFirst others later
      rw [canonical stream value afterFirst first, bytes, List.flatMap_cons, List.append_assoc,
        List.length_cons, length]
      exact ⟨rfl, rfl⟩

theorem FailsOnly.repeated {decoder : Decoder β ε α} {Failure : ε → Prop}
    (only : FailsOnly decoder Failure) (count : Nat) :
    FailsOnly (repeated decoder count) Failure := by
  induction count with
  | zero =>
      intro stream failure ran
      cases ran
  | succ count ih =>
      intro stream failure ran
      rcases run_bind_error ran with first | ⟨value, rest, _, ran⟩
      · exact only stream failure first
      · rcases run_bind_error ran with later | ⟨values, _, _, last⟩
        · exact ih rest failure later
        · cases last

/-! Words of a fixed number of bytes, the most significant byte first. -/

def bigEndian : Nat → Nat → List UInt8
  | 0, _ => []
  | width + 1, value => bigEndian width (value / 256) ++ [UInt8.ofNat value]

def ofBigEndian (bytes : List UInt8) : Nat :=
  bytes.foldl (fun value byte => value * 256 + byte.toNat) 0

theorem length_bigEndian (width value : Nat) : (bigEndian width value).length = width := by
  induction width generalizing value with
  | zero => rfl
  | succ width ih => rw [bigEndian, List.length_append, ih, List.length_singleton]

theorem ofBigEndian_bigEndian (width value : Nat) (bounded : value < 256 ^ width) :
    ofBigEndian (bigEndian width value) = value := by
  induction width generalizing value with
  | zero =>
      rw [Nat.pow_zero, Nat.lt_one_iff] at bounded
      rw [bounded]
      rfl
  | succ width ih =>
      have quotient : value / 256 < 256 ^ width := by
        rw [Nat.pow_succ] at bounded
        exact Nat.div_lt_of_lt_mul (by rwa [Nat.mul_comm])
      have digits := Nat.div_add_mod' value 256
      rw [bigEndian, ofBigEndian, List.foldl_append, ← ofBigEndian, ih _ quotient]
      change value / 256 * 256 + value % 256 = value
      exact digits

def word (width : Nat) (short : ε) : Decoder UInt8 ε Nat := fun bytes =>
  if width ≤ bytes.length then .ok (ofBigEndian (bytes.take width), bytes.drop width)
  else .error short

theorem reads_word (width value : Nat) (short : ε) (bounded : value < 256 ^ width) :
    Reads (word width short) (bigEndian width value) value := by
  intro rest
  have length := length_bigEndian width value
  change word width short _ = _
  rw [word, if_pos (by rw [List.length_append, length]; exact Nat.le_add_right _ _),
    List.take_left' length, List.drop_left' length, ofBigEndian_bigEndian width value bounded]

theorem bigEndian_mod (width value : Nat) :
    bigEndian width (value % 256 ^ width) = bigEndian width value := by
  induction width generalizing value with
  | zero => rfl
  | succ width ih =>
      have high : value % 256 ^ (width + 1) / 256 = value / 256 % 256 ^ width := by
        rw [Nat.pow_succ, Nat.mod_mul_left_div_self]
      have low : UInt8.ofNat (value % 256 ^ (width + 1)) = UInt8.ofNat value := by
        rw [← UInt8.toNat_inj, UInt8.toNat_ofNat', UInt8.toNat_ofNat']
        exact Nat.mod_mod_of_dvd _ ⟨256 ^ width, Nat.pow_succ'⟩
      rw [bigEndian, bigEndian, high, low, ih]

theorem bigEndian_ofBigEndian (bytes : List UInt8) :
    bigEndian bytes.length (ofBigEndian bytes) = bytes := by
  induction bytes using List.reverseRecOn with
  | nil => rfl
  | append_singleton bytes byte ih =>
      have small := byte.toNat_lt
      have value : ofBigEndian (bytes ++ [byte]) = ofBigEndian bytes * 256 + byte.toNat := by
        simp [ofBigEndian]
      have high : (ofBigEndian bytes * 256 + byte.toNat) / 256 = ofBigEndian bytes := by omega
      have low : UInt8.ofNat (ofBigEndian bytes * 256 + byte.toNat) = byte := by
        rw [← UInt8.toNat_inj, UInt8.toNat_ofNat']
        omega
      rw [List.length_append, List.length_singleton, bigEndian, value, high, low, ih]

theorem canonical_word (width : Nat) (short : ε) :
    Canonical (word width short) (bigEndian width) := by
  intro stream value rest ran
  change word width short stream = _ at ran
  unfold word at ran
  split at ran
  · rename_i enough
    cases ran
    have encoded := bigEndian_ofBigEndian (stream.take width)
    rw [List.length_take_of_le enough] at encoded
    rw [encoded, List.take_append_drop]
  · cases ran

theorem failsOnly_word (width : Nat) (short : ε) (Failure : ε → Prop) (fails : Failure short) :
    FailsOnly (word width short) Failure := by
  intro stream failure ran
  change word width short stream = _ at ran
  unfold word at ran
  split at ran
  · cases ran
  · cases ran
    exact fails

end Library.Codec
