import HazelcastCache.Serialization

/-! What `readData` makes of bytes that `writeData` did not write. -/

namespace HazelcastCache

open Library Codec

def StreamError.IsException : StreamError → Prop
  | .exception _ _ => True
  | .nullDereference => False

/-- Each read takes exactly the bytes off the stream that a write puts there, or throws. -/
structure DataStream.Exact (stream : DataStream) : Prop extends stream.Lawful where
  canonicalInt : Canonical stream.readInt stream.writeInt
  canonicalLong : Canonical stream.readLong stream.writeLong
  canonicalChar : Canonical stream.readChar stream.writeChar
  throwsInt : FailsOnly stream.readInt StreamError.IsException
  throwsLong : FailsOnly stream.readLong StreamError.IsException
  throwsChar : FailsOnly stream.readChar StreamError.IsException

theorem writeCharArray_null (stream : DataStream) :
    stream.writeCharArray none = stream.writeInt nullArray := by
  simp [DataStream.writeCharArray, DataStream.writeArray, nullArray]

section Arrays

variable {stream : DataStream} (exact : stream.Exact)

include exact

theorem writeInt_append_inj (first second : Int32) (firstRest secondRest : Bytes)
    (same : stream.writeInt first ++ firstRest = stream.writeInt second ++ secondRest) :
    first = second ∧ firstRest = secondRest := by
  have one := exact.int first firstRest
  rw [same, exact.int second secondRest] at one
  cases one
  exact ⟨rfl, rfl⟩

theorem canonical_charArray (bytes : Bytes) (pointer : Option Bytes) (rest : Bytes)
    (ran : stream.readCharArray.run bytes = .ok (pointer, rest)) :
    bytes = stream.writeCharArray pointer ++ rest ∧
      ∀ values, pointer = some values → values.length < 2 ^ 31 := by
  obtain ⟨len, after, counted, ran⟩ := run_bind_ok ran
  rw [exact.canonicalInt bytes len after counted]
  split at ran
  · rename_i null
    cases ran
    subst null
    constructor
    · rw [writeCharArray_null]
    · intro values same
      cases same
  split at ran
  · rename_i zero
    cases ran
    subst zero
    constructor
    · simp [DataStream.writeCharArray, DataStream.writeArray]
    · intro values same
      cases same
      exact Nat.two_pow_pos 31
  split at ran
  · cases ran
  rename_i nonzero notNegative
  obtain ⟨values, afterAll, elements, last⟩ := run_bind_ok ran
  cases last
  obtain ⟨length, bytes⟩ := exact.canonicalChar.repeated _ _ _ _ elements
  have positive : 0 < len :=
    Int32.lt_of_le_of_ne (Int32.not_lt.mp notNegative) (Ne.symm nonzero)
  have prefixed : Int32.ofNat values.length = len := by
    rw [length]
    exact Int32.ofNat_toNatClampNeg _ (Int32.le_of_lt positive)
  constructor
  · rw [bytes, DataStream.writeCharArray, DataStream.writeArray]
    simp only [prefixed, if_pos positive, Option.getD_some]
    rw [← length, List.take_length, List.append_assoc]
  · intro others same
    cases same
    rw [length]
    exact len.toNatClampNeg_lt

theorem throws_charArray : FailsOnly stream.readCharArray StreamError.IsException := by
  intro bytes failure ran
  rcases run_bind_error ran with failed | ⟨len, rest, _, ran⟩
  · exact exact.throwsInt bytes failure failed
  split at ran
  · cases ran
  split at ran
  · cases ran
  split at ran
  · cases ran
    trivial
  rcases run_bind_error ran with failed | ⟨values, _, _, last⟩
  · exact exact.throwsChar.repeated _ rest failure failed
  · cases last

end Arrays

/-- Among the next `count` headers, all complete so far, is one with the length of a null
array in the place of its key or its value. -/
inductive NullHeader (stream : DataStream) : Nat → Bytes → Prop
  | key (count : Nat) (rest : Bytes) :
      NullHeader stream (count + 1) (stream.writeInt nullArray ++ rest)
  | value (count : Nat) (key rest : Bytes) (short : key.length < 2 ^ 31) :
      NullHeader stream (count + 1)
        (stream.writeCharArray (some key) ++ (stream.writeInt nullArray ++ rest))
  | later (count : Nat) (header : HeaderField) (bytes : Bytes)
      (short : header.key.length < 2 ^ 31 ∧ header.value.length < 2 ^ 31)
      (null : NullHeader stream count bytes) :
      NullHeader stream (count + 1) (writeHeader stream header ++ bytes)

/-- The streams on which `readData` skips its loop although it has a count, or comes to a null
array. -/
inductive Malformed (stream : DataStream) : Bytes → Prop
  | negativeCount (count : Int32) (size : Int64) (rest : Bytes) (negative : count < 0) :
      Malformed stream (stream.writeInt count ++ (stream.writeLong size ++ rest))
  | nullHeader (count : Int32) (bytes : Bytes)
      (null : NullHeader stream count.toNatClampNeg bytes) :
      Malformed stream (stream.writeInt count ++ bytes)

/-- `readData` throws, or it consumes exactly what `writeData` writes for its result. -/
def StrictOn (stream : DataStream) (bytes : Bytes) : Prop :=
  (∃ source message, (HazelcastHeaderEntry.readData stream).run bytes =
      .error (.exception source message)) ∨
    ∃ entry consumed rest, (HazelcastHeaderEntry.readData stream).run bytes = .ok (entry, rest) ∧
      entry.writeData stream = .ok consumed ∧ bytes = consumed ++ rest

section Headers

variable {stream : DataStream}

theorem reads_nullArray (lawful : stream.Lawful) :
    Reads stream.readCharArray (stream.writeInt nullArray) none := by
  rw [← List.append_nil (stream.writeInt nullArray)]
  apply (lawful.int nullArray).bind
  rw [if_pos rfl]
  exact reads_pure none

theorem readHeaders_null (lawful : stream.Lawful) {count : Nat} {bytes : Bytes}
    (null : NullHeader stream count bytes) (headers : HeaderMapImpl) :
    (readHeaders stream count headers).run bytes = .error .nullDereference := by
  induction null generalizing headers with
  | key count rest =>
      rw [readHeaders, (reads_nullArray lawful).run_bind]
      rfl
  | value count key rest short =>
      rw [readHeaders, (reads_charArray lawful key short).run_bind, follow, pure_bind,
        (reads_nullArray lawful).run_bind]
      rfl
  | later count header bytes short null ih =>
      rw [readHeaders, writeHeader, List.append_assoc,
        (reads_charArray lawful header.key short.1).run_bind, follow, pure_bind,
        (reads_charArray lawful header.value short.2).run_bind, follow, pure_bind]
      exact ih _

variable (exact : stream.Exact)

include exact

theorem readHeaders_ok (count : Nat) (done headers : HeaderMapImpl) (bytes rest : Bytes)
    (ran : (readHeaders stream count done).run bytes = .ok (headers, rest)) :
    ∃ added, headers = done ++ added ∧ added.length = count ∧
      bytes = added.flatMap (writeHeader stream) ++ rest := by
  induction count generalizing done bytes with
  | zero =>
      cases ran
      exact ⟨[], (List.append_nil _).symm, rfl, rfl⟩
  | succ count ih =>
      obtain ⟨keyPtr, afterKey, readKey, ran⟩ := run_bind_ok ran
      obtain ⟨key, _, followed, ran⟩ := run_bind_ok ran
      cases keyPtr with
      | none => cases followed
      | some keyBytes =>
          cases followed
          obtain ⟨valuePtr, afterValue, readValue, ran⟩ := run_bind_ok ran
          obtain ⟨value, _, followed, ran⟩ := run_bind_ok ran
          cases valuePtr with
          | none => cases followed
          | some valueBytes =>
              cases followed
              obtain ⟨added, rfl, length, later⟩ := ih _ _ ran
              refine ⟨⟨key, value⟩ :: added, by simp, by simp [length], ?_⟩
              rw [(canonical_charArray exact _ _ _ readKey).1,
                (canonical_charArray exact _ _ _ readValue).1, later, List.flatMap_cons,
                writeHeader, List.append_assoc, List.append_assoc]

theorem readHeaders_error (count : Nat) (done : HeaderMapImpl) (bytes : Bytes)
    (failure : StreamError)
    (ran : (readHeaders stream count done).run bytes = .error failure) :
    failure.IsException ∨ NullHeader stream count bytes := by
  induction count generalizing done bytes with
  | zero => cases ran
  | succ count ih =>
      rcases run_bind_error ran with failed | ⟨keyPtr, afterKey, readKey, ran⟩
      · exact Or.inl (throws_charArray exact bytes failure failed)
      obtain ⟨keyBytes, shortKey⟩ := canonical_charArray exact _ _ _ readKey
      rw [keyBytes]
      cases keyPtr with
      | none =>
          rw [writeCharArray_null]
          exact Or.inr (.key count _)
      | some key =>
          rw [follow, pure_bind] at ran
          rcases run_bind_error ran with failed | ⟨valuePtr, afterValue, readValue, ran⟩
          · exact Or.inl (throws_charArray exact _ failure failed)
          obtain ⟨valueBytes, shortValue⟩ := canonical_charArray exact _ _ _ readValue
          rw [valueBytes]
          cases valuePtr with
          | none =>
              rw [writeCharArray_null]
              exact Or.inr (.value count key _ (shortKey key rfl))
          | some value =>
              rw [follow, pure_bind] at ran
              rcases ih _ _ ran with exception | null
              · exact Or.inl exception
              · right
                rw [← List.append_assoc]
                exact .later count ⟨key, value⟩ _ ⟨shortKey key rfl, shortValue value rfl⟩ null

theorem readData_error (bytes : Bytes) (failure : StreamError)
    (ran : (HazelcastHeaderEntry.readData stream).run bytes = .error failure) :
    failure.IsException ∨ Malformed stream bytes := by
  rcases run_bind_error ran with failed | ⟨count, afterCount, counted, ran⟩
  · exact Or.inl (exact.throwsInt _ _ failed)
  rcases run_bind_error ran with failed | ⟨headers, afterHeaders, _, ran⟩
  · rcases readHeaders_error exact _ _ _ _ failed with exception | null
    · exact Or.inl exception
    · right
      rw [exact.canonicalInt _ _ _ counted]
      exact .nullHeader count afterCount null
  rcases run_bind_error ran with failed | ⟨size, _, _, last⟩
  · exact Or.inl (exact.throwsLong _ _ failed)
  · cases last

theorem readData_ok (bytes rest : Bytes) (entry : HazelcastHeaderEntry)
    (ran : (HazelcastHeaderEntry.readData stream).run bytes = .ok (entry, rest)) :
    Malformed stream bytes ∨
      ∃ consumed, entry.writeData stream = .ok consumed ∧ bytes = consumed ++ rest := by
  obtain ⟨count, afterCount, counted, ran⟩ := run_bind_ok ran
  obtain ⟨headers, afterHeaders, looped, ran⟩ := run_bind_ok ran
  obtain ⟨size, afterSize, sized, last⟩ := run_bind_ok ran
  cases last
  obtain ⟨_, rfl, length, added⟩ := readHeaders_ok exact _ _ _ _ _ looped
  have whole : bytes = stream.writeInt count ++ (headers.flatMap (writeHeader stream) ++
      (stream.writeLong size ++ rest)) := by
    calc
      bytes = stream.writeInt count ++ afterCount := exact.canonicalInt _ _ _ counted
      _ = stream.writeInt count ++ (headers.flatMap (writeHeader stream) ++ afterHeaders) := by
        rw [added]
      _ = _ := by rw [exact.canonicalLong _ _ _ sized]
  rcases Int32.lt_or_le count 0 with negative | notNegative
  · left
    have none : headers = [] := by
      rw [← List.length_eq_zero_iff, length]
      exact Int32.toNatClampNeg_eq_zero_iff.mpr (Int32.le_of_lt negative)
    rw [whole, none]
    exact .negativeCount count size rest negative
  · right
    refine ⟨_, rfl, ?_⟩
    rw [length, Int32.ofNat_toNatClampNeg count notNegative, whole]
    simp [List.append_assoc]

theorem strictOn_or_malformed (bytes : Bytes) : StrictOn stream bytes ∨ Malformed stream bytes := by
  cases ran : (HazelcastHeaderEntry.readData stream).run bytes with
  | error failure =>
      rcases readData_error exact bytes failure ran with exception | malformed
      · cases failure with
        | exception source message => exact Or.inl (Or.inl ⟨source, message, ran⟩)
        | nullDereference => exact exception.elim
      · exact Or.inr malformed
  | ok result =>
      obtain ⟨entry, rest⟩ := result
      rcases readData_ok exact bytes rest entry ran with malformed | ⟨consumed, written, split⟩
      · exact Or.inr malformed
      · exact Or.inl (Or.inr ⟨entry, consumed, rest, ran, written, split⟩)

theorem Malformed.of_count {count : Int32} {rest : Bytes}
    (malformed : Malformed stream (stream.writeInt count ++ rest)) :
    count < 0 ∨ NullHeader stream count.toNatClampNeg rest := by
  generalize bytes : stream.writeInt count ++ rest = whole at malformed
  cases malformed with
  | negativeCount other size unread negative =>
      rw [(writeInt_append_inj exact _ _ _ _ bytes).1]
      exact Or.inl negative
  | nullHeader other later null =>
      obtain ⟨rfl, rfl⟩ := writeInt_append_inj exact _ _ _ _ bytes
      exact Or.inr null

theorem Malformed.not_strictOn {bytes : Bytes} (malformed : Malformed stream bytes) :
    ¬ StrictOn stream bytes := by
  intro strict
  cases malformed with
  | negativeCount count size rest negative =>
      have skipped : count.toNatClampNeg = 0 :=
        Int32.toNatClampNeg_eq_zero_iff.mpr (Int32.le_of_lt negative)
      have ran : (HazelcastHeaderEntry.readData stream).run
          (stream.writeInt count ++ (stream.writeLong size ++ rest)) =
            .ok (⟨some [], size.toUInt64⟩, rest) := by
        rw [HazelcastHeaderEntry.readData, (exact.int count).run_bind, skipped, readHeaders,
          pure_bind, (exact.long size).run_bind]
        rfl
      rcases strict with ⟨source, message, failed⟩ | ⟨entry, consumed, unread, read, written, split⟩
      · rw [ran] at failed
        cases failed
      · rw [ran] at read
        cases read
        cases written
        rw [List.append_assoc] at split
        have zero := (writeInt_append_inj exact _ _ _ _ split).1
        rw [zero] at negative
        exact absurd negative (by decide)
  | nullHeader count bytes null =>
      have ran : (HazelcastHeaderEntry.readData stream).run (stream.writeInt count ++ bytes) =
          .error .nullDereference := by
        rw [HazelcastHeaderEntry.readData, (exact.int count).run_bind, StateT.run_bind,
          readHeaders_null exact.toLawful null]
        rfl
      rcases strict with ⟨source, message, failed⟩ | ⟨entry, consumed, unread, read, _⟩
      · rw [ran] at failed
        cases failed
      · rw [ran] at read
        cases read

end Headers

/-- The header decoder accepts nothing but what the encoder writes and throws on the rest, if
and only if the bytes do not start with a negative count and a size, and have no null array
where a header should be. -/
theorem header_decoder_strict_iff (stream : DataStream) (exact : stream.Exact) (bytes : Bytes) :
    StrictOn stream bytes ↔ ¬ Malformed stream bytes := by
  constructor
  · intro strict malformed
    exact malformed.not_strictOn exact strict
  · intro wellFormed
    exact (strictOn_or_malformed exact bytes).resolve_right wellFormed

/-- The big-endian stream with one byte for a `char`, so that nothing is lost. -/
def byteCharStream : DataStream where
  writeInt := bigEndianStream.writeInt
  writeLong := bigEndianStream.writeLong
  writeChar := bigEndianStream.writeByte
  writeByte := bigEndianStream.writeByte
  readInt := bigEndianStream.readInt
  readLong := bigEndianStream.readLong
  readChar := bigEndianStream.readByte
  readByte := bigEndianStream.readByte

theorem byteCharStream_exact : byteCharStream.Exact where
  int := bigEndianStream_lawful.int
  long := bigEndianStream_lawful.long
  char := bigEndianStream_lawful.byte
  byte := bigEndianStream_lawful.byte
  canonicalInt := (canonical_word 4 _).map _ _ (fun value => by
    change bigEndian 4 (UInt32.ofNat value).toInt32.toUInt32.toNat = _
    rw [UInt32.toUInt32_toInt32, UInt32.toNat_ofNat']
    exact bigEndian_mod 4 value)
  canonicalLong := (canonical_word 8 _).map _ _ (fun value => by
    change bigEndian 8 (UInt64.ofNat value).toInt64.toUInt64.toNat = _
    rw [UInt64.toUInt64_toInt64, UInt64.toNat_ofNat']
    exact bigEndian_mod 8 value)
  canonicalChar := (canonical_word 1 _).map _ _ (fun value => by
    change bigEndian 1 (UInt8.ofNat value).toNat = _
    rw [UInt8.toNat_ofNat']
    exact bigEndian_mod 1 value)
  throwsInt := (failsOnly_word 4 _ _ trivial).map _
  throwsLong := (failsOnly_word 8 _ _ trivial).map _
  throwsChar := (failsOnly_word 1 _ _ trivial).map _

theorem header_decoder_strict_one_header :
    let bytes : Bytes := [0, 0, 0, 1, 0, 0, 0, 1, 97, 0, 0, 0, 1, 98, 0, 0, 0, 0, 0, 0, 0, 5, 9]
    StrictOn byteCharStream bytes ∧
      (HazelcastHeaderEntry.readData byteCharStream).run bytes =
        .ok (⟨some [⟨[97], [98]⟩], 5⟩, [9]) := by
  intro bytes
  refine ⟨(header_decoder_strict_iff byteCharStream byteCharStream_exact bytes).mpr ?_, by decide⟩
  intro malformed
  have start : bytes = byteCharStream.writeInt 1 ++
      [0, 0, 0, 1, 97, 0, 0, 0, 1, 98, 0, 0, 0, 0, 0, 0, 0, 5, 9] := by decide
  rw [start] at malformed
  rcases malformed.of_count byteCharStream_exact with negative | null
  · exact absurd negative (by decide)
  · exact absurd (readHeaders_null byteCharStream_exact.toLawful null []) (by decide)

/-- The count -1 is read as no header at all, and a null key is followed. -/
theorem header_decoder_not_strict :
    let negative : Bytes := [255, 255, 255, 255, 0, 0, 0, 0, 0, 0, 0, 5]
    let null : Bytes := [0, 0, 0, 1, 255, 255, 255, 255]
    let entry : HazelcastHeaderEntry := ⟨some [], 5⟩
    (HazelcastHeaderEntry.readData byteCharStream).run negative = .ok (entry, []) ∧
      entry.writeData byteCharStream = .ok [0, 0, 0, 0, 0, 0, 0, 0, 0, 0, 0, 5] ∧
      (HazelcastHeaderEntry.readData byteCharStream).run null = .error .nullDereference ∧
      ¬ StrictOn byteCharStream negative ∧ ¬ StrictOn byteCharStream null := by
  intro negative null entry
  have negativeCount : Malformed byteCharStream negative := .negativeCount (-1) 5 [] (by decide)
  have nullKey : Malformed byteCharStream null := .nullHeader 1 _ (.key 0 [])
  exact ⟨by decide, by decide, by decide, negativeCount.not_strictOn byteCharStream_exact,
    nullKey.not_strictOn byteCharStream_exact⟩

end HazelcastCache
