import HazelcastCache.Serialization
import HazelcastCache.StoredResponse

/-! Body partitions through the client's stream, whose arrays have a signed 32-bit length. -/

namespace HazelcastCache

open Library Codec

namespace DataStream

variable {stream : DataStream} (lawful : stream.Lawful) {T : Type} (write : T → Bytes)
  (read : Decoder UInt8 StreamError T) (each : ∀ value, Reads read (write value) value)
  (values : List T)

/-- A length whose cast is positive is written like the shorter array it stands for. -/
theorem writeArray_take (positive : 0 < Int32.ofNat values.length) :
    stream.writeArray write (some values) = stream.writeArray write
      (some (values.take (Int32.ofNat values.length).toNatClampNeg)) := by
  have smaller : (Int32.ofNat values.length).toNatClampNeg ≤ values.length := by
    rw [← Int32.toNat_toInt, Int32.toInt_ofNat', Int.toNat_le, Int.bmod_def, Int32.size]
    split <;> omega
  have length : Int32.ofNat (values.take (Int32.ofNat values.length).toNatClampNeg).length =
      Int32.ofNat values.length := by
    rw [List.length_take_of_le smaller]
    exact Int32.ofNat_toNatClampNeg _ (Int32.le_of_lt positive)
  simp only [writeArray, length, Option.getD_some, List.take_take, Nat.min_self]

include lawful

theorem readArray_notPositive (notPositive : ¬ 0 < Int32.ofNat values.length) (rest : Bytes) :
    (stream.readArray read).run (stream.writeArray write (some values) ++ rest) =
      if Int32.ofNat values.length = nullArray then .ok (none, rest)
      else if Int32.ofNat values.length = 0 then .ok (some [], rest)
      else .error (.exception "DataInput::readArray"
        ("Incorrect negative array size found in the byte stream. The size is: " ++
          toString (Int32.ofNat values.length))) := by
  have elements : stream.writeArray write (some values) =
      stream.writeInt (Int32.ofNat values.length) := by
    rw [writeArray, if_neg notPositive, List.append_nil]
  rw [elements, readArray, StateT.run_bind, lawful.int]
  change StateT.run (if _ then _ else _) rest = _
  generalize Int32.ofNat values.length = len at notPositive ⊢
  by_cases null : len = nullArray
  · rw [if_pos null, if_pos null]
    rfl
  · rw [if_neg null, if_neg null]
    by_cases zero : len = 0
    · rw [if_pos zero, if_pos zero]
      rfl
    · have negative : len < 0 :=
        Int32.lt_of_le_of_ne (Int32.not_lt.mp notPositive) zero
      rw [if_neg zero, if_neg zero, if_pos negative]
      rfl

include each

theorem readArray_writeArray_iff (rest : Bytes) :
    (stream.readArray read).run (stream.writeArray write (some values) ++ rest) =
      .ok (some values, rest) ↔ values.length < 2 ^ 31 := by
  constructor
  · intro readBack
    rcases Int32.lt_or_le 0 (Int32.ofNat values.length) with positive | notPositive
    · -- A shorter array has been written.
      have bounded := (Int32.ofNat values.length).toNatClampNeg_lt
      have shorter := stream.reads_array lawful write read each
        (values.take (Int32.ofNat values.length).toNatClampNeg)
        (by rw [List.length_take]; omega) rest
      rw [← writeArray_take write values positive, readBack] at shorter
      have lengths := congrArg List.length (Option.some.inj (Prod.mk.inj (Except.ok.inj shorter)).1)
      rw [List.length_take] at lengths
      omega
    · rw [readArray_notPositive lawful write read values (Int32.not_lt.mpr notPositive)] at readBack
      split at readBack
      · cases readBack
      · split at readBack
        · cases readBack
          exact Nat.two_pow_pos 31
        · cases readBack
  · intro short
    exact stream.reads_array lawful write read each values short rest

end DataStream

theorem body_entry_round_trip_iff (stream : DataStream) (lawful : stream.Lawful)
    (entry : HazelcastBodyEntry) (rest : Bytes) :
    (HazelcastBodyEntry.readData stream).run (entry.writeData stream ++ rest) =
      .ok (entry, rest) ↔ entry.bodyBuffer.length < 2 ^ 31 := by
  rw [← DataStream.readArray_writeArray_iff lawful stream.writeByte stream.readByte lawful.byte
    entry.bodyBuffer rest]
  change _ ↔ stream.readByteArray.run (entry.writeData stream ++ rest) = _
  rw [HazelcastBodyEntry.readData, StateT.run_bind]
  cases stream.readByteArray.run (entry.writeData stream ++ rest) with
  | error failure =>
      constructor
      · intro failed
        cases failed
      · intro failed
        cases failed
  | ok result =>
      obtain ⟨pointer, unread⟩ := result
      cases pointer with
      | none =>
          constructor
          · intro failed
            cases failed
          · intro failed
            cases failed
      | some buffer =>
          constructor
          · intro same
            cases same
            rfl
          · intro same
            cases same
            rfl

theorem Insert.partitions_short_iff (insert : Insert) (cache : HazelcastHttpCache) :
    (∀ index < insert.partitions cache,
        (Segments.block cache.partition index insert.body).length < 2 ^ 31) ↔
      min cache.partition insert.body.length < 2 ^ 31 := by
  constructor
  · intro short
    rcases Nat.eq_zero_or_pos insert.body.length with empty | nonempty
    · rw [empty, Nat.min_zero]
      exact Nat.two_pow_pos 31
    · have first := short 0 (insert.lt_partitions cache 0 (by omega))
      rwa [Segments.block_length, Nat.zero_mul, Nat.sub_zero] at first
  · intro short index inside
    rw [Segments.block_length]
    omega

/-- Every partition that an insert puts survives serialization, if and only if the partition
size or the body is shorter than `2^31` bytes. -/
theorem partitions_survive_iff (stream : DataStream) (lawful : stream.Lawful)
    (cache : HazelcastHttpCache) (hashKey : UInt64) (insert : Insert) (rest : Bytes) :
    ∃ puts, insert.puts cache hashKey = .ok puts ∧
      ((∀ key entry, .body key entry ∈ puts →
          (HazelcastBodyEntry.readData stream).run (entry.writeData stream ++ rest) =
            .ok (entry, rest)) ↔
        min cache.partition insert.body.length < 2 ^ 31) := by
  refine ⟨insert.log cache hashKey, insert.puts_eq_log cache hashKey, ?_⟩
  rw [← insert.partitions_short_iff cache]
  constructor
  · intro survive index inside
    have put := (insert.mem_log cache hashKey _).mpr (Or.inl ⟨index, inside, rfl⟩)
    exact (body_entry_round_trip_iff stream lawful _ rest).mp (survive _ _ put)
  · intro short key entry member
    rw [body_entry_round_trip_iff stream lawful entry rest]
    rcases (insert.mem_log cache hashKey _).mp member with ⟨index, inside, same⟩ | same
    · obtain ⟨_, rfl⟩ := Put.body.inj same
      exact short index inside
    · cases same

theorem partitions_survive_unpartitioned :
    let cache : HazelcastHttpCache := ⟨{ bodyPartitionSize := -1 }⟩
    let insert := Insert.single [] ⟨[5, 6, 7], by decide⟩
    ∃ puts, insert.puts cache 17 = .ok puts ∧ ∀ key entry, .body key entry ∈ puts →
      (HazelcastBodyEntry.readData bigEndianStream).run (entry.writeData bigEndianStream) =
        .ok (entry, []) := by
  intro cache insert
  rcases partitions_survive_iff bigEndianStream bigEndianStream_lawful cache 17 insert [] with
    ⟨puts, emitted, survive⟩
  refine ⟨puts, emitted, ?_⟩
  intro key entry member
  have kept := survive.mpr (by decide) key entry member
  rwa [List.append_nil] at kept

theorem partition_of_two_gigabytes_lost :
    let cache : HazelcastHttpCache := ⟨{ bodyPartitionSize := 2147483648 }⟩
    let body : Bytes := List.replicate (2 ^ 31) 0
    let insert := Insert.single [] ⟨body, by rw [List.length_replicate]; decide⟩
    ∃ puts, insert.puts cache 17 = .ok puts ∧ .body ("", "170") ⟨body⟩ ∈ puts ∧
      (HazelcastBodyEntry.readData bigEndianStream).run
          (HazelcastBodyEntry.writeData bigEndianStream ⟨body⟩) =
        .error (.exception "DataInput::readArray" ("Incorrect negative array size found in " ++
          "the byte stream. The size is: -2147483648")) := by
  intro cache body insert
  have length : body.length = 2 ^ 31 := List.length_replicate
  have size : cache.partition = 2 ^ 31 := by decide
  have whole : insert.body = body := Insert.single_body _ _
  have first : Segments.block cache.partition 0 insert.body = body := by
    rw [whole, Segments.block_eq_drop _ _ _ (by rw [length, size]; decide), Nat.zero_mul,
      List.drop_zero]
  have inside : 0 * cache.partition < insert.body.length := by
    rw [whole, length, Nat.zero_mul]
    decide
  have negative : ¬ 0 < Int32.ofNat body.length := by
    rw [length]
    decide
  have refused := DataStream.readArray_notPositive bigEndianStream_lawful
    bigEndianStream.writeByte bigEndianStream.readByte body negative []
  rw [List.append_nil, length, if_neg (by decide), if_neg (by decide)] at refused
  refine ⟨_, insert.puts_eq_log cache 17, ?_, ?_⟩
  · apply (insert.mem_log cache 17 _).mpr
    left
    refine ⟨0, insert.lt_partitions cache 0 inside, ?_⟩
    have key : "170" = toString (17 : UInt64) ++ toString (Int32.ofNat 0) := by decide
    rw [blockPut, first, ← key]
    rfl
  · rw [HazelcastBodyEntry.readData, StateT.run_bind]
    change (bigEndianStream.readArray bigEndianStream.readByte).run
      (bigEndianStream.writeArray bigEndianStream.writeByte (some body)) >>= _ = _
    rw [refused]
    decide

end HazelcastCache
