import SpaceWasm.CircularBuffer
import SpaceWasm.Error
import SpaceWasm.Lib.Fallible

/-!
# The byte reader

A Wasm binary arrives as a stream of chunks of any sizes. `Reader` copies them
through a ring buffer of 64 bytes, which it refills only when it is empty, and
counts the bytes that have been consumed. `limit` is the end of the section or
function body that is being read.

What the reader stands for is its `view`: the bytes that have not been consumed,
wherever they are, the way the stream ends, the offset and the limit.

`expect_u8` looks at the next byte before it reads it, so it fails with
`ExpectedTerminal` without consuming a byte, and its look ignores the limit.
-/

namespace SpaceWasm

open Fallible

/-! ### Streams of chunks -/

/-- The part of a binary that a stream has yet to deliver, in its chunks. -/
structure WasmStream where
  chunks : List (List U8)
  /-- What the stream reports after the last chunk: `none` is the end of the
  input, `some c` an error. -/
  ending : Option U8
  nonempty : ∀ chunk ∈ chunks, chunk ≠ []

namespace WasmStream

/-- `WasmStream::read`: the next chunk. -/
def read (stream : WasmStream) : Except U8 (Option (List U8)) × WasmStream :=
  match h : stream.chunks with
  | chunk :: rest =>
      (.ok (some chunk),
        ⟨rest, stream.ending, fun c hc => stream.nonempty c (h ▸ List.mem_cons_of_mem chunk hc)⟩)
  | [] =>
      match stream.ending with
      | none => (.ok none, stream)
      | some c => (.error c, stream)

/-- The bytes of the remaining chunks. -/
def bytes (stream : WasmStream) : List U8 := stream.chunks.flatten

/-- A stream that delivers its bytes in one chunk. -/
def ofBytes (input : List U8) : WasmStream :=
  if h : input = [] then ⟨[], none, fun c hc => by cases hc⟩
  else ⟨[input], none, fun c hc => by rwa [List.mem_singleton.1 hc]⟩

@[simp] theorem bytes_ofBytes (input : List U8) : (ofBytes input).bytes = input := by
  unfold ofBytes bytes
  split
  · next h =>
    rw [h]
    rfl
  · exact List.append_nil input

end WasmStream

/-! ### The reader -/

/-- The Wasm byte stream with the read position and the read limit. -/
structure Reader where
  stream : WasmStream
  /-- The bytes of `next` that have been copied into the buffer. -/
  chunkUsed : ℕ
  /-- The current chunk. -/
  next : Option (List U8)
  buffer : CircularBuffer U8 64
  /-- `full_offset`: the number of bytes consumed so far. -/
  offset : ℕ
  /-- The offset up to which reads are allowed. -/
  limit : ℕ
  chunkUsed_le : ∀ chunk ∈ next, chunkUsed ≤ chunk.length

abbrev ReaderM (α : Type) := Fallible ValidationError Reader α

namespace Reader

def new (stream : WasmStream) : Reader := {
  stream := stream
  chunkUsed := 0
  next := none
  buffer := .new
  offset := 0
  limit := usizeMax
  chunkUsed_le := fun _ h => by cases h }

/-- The bytes that may still be read before the current limit. -/
def bytesRemaining (r : Reader) : ℕ := r.limit - r.offset

/-- The bytes that have not been consumed: those in the buffer, those of the
current chunk that have not been copied, and those of the later chunks. -/
def input (r : Reader) : List U8 :=
  r.buffer.toList ++ (r.next.getD []).drop r.chunkUsed ++ r.stream.bytes

/-- The error with which a read past the last byte fails. -/
def endError (r : Reader) : ValidationError :=
  match r.stream.ending with
  | none => .eof
  | some c => .readerError c

/-- What a reader stands for. -/
structure View where
  input : List U8
  ending : Option U8
  offset : ℕ
  limit : ℕ

def view (r : Reader) : View := ⟨r.input, r.stream.ending, r.offset, r.limit⟩

/-- The current chunk with the bytes from `used` on copied into the buffer, as
many as it holds. -/
def copy (r : Reader) (chunk : List U8) (used : ℕ) (h : used ≤ chunk.length) : Reader :=
  let toCopy := min (chunk.length - used) 64
  { r with
    next := some chunk
    buffer := r.buffer.pushAll ((chunk.drop used).take toCopy)
    chunkUsed := used + toCopy
    chunkUsed_le := by
      intro c hc
      cases hc
      omega }

/-- Fetch the next chunk; the exhausted one has gone back to the stream. -/
def fetch : ReaderM Unit := fun r =>
  match r.stream.read with
  | (.error c, stream) =>
      .error (.readerError c)
        { r with stream := stream, next := none, chunkUsed_le := fun _ h => by cases h }
  | (.ok none, stream) =>
      .error .eof
        { r with stream := stream, next := none, chunkUsed := 0
                 chunkUsed_le := fun _ h => by cases h }
  | (.ok (some chunk), stream) =>
      if chunk = [] then
        .error .eof
          { r with stream := stream, next := some chunk, chunkUsed := 0
                   chunkUsed_le := fun _ _ => Nat.zero_le _ }
      else .ok () ({ r with stream := stream }.copy chunk 0 (Nat.zero_le _))

/-- `fill_buffer`: refill the buffer when it is empty. -/
def fillBuffer : ReaderM Unit := fun r =>
  if r.buffer.isEmpty = false then .ok () r
  else
    match h : r.next with
    | some chunk =>
        if 0 < chunk.length - r.chunkUsed then
          .ok () (r.copy chunk r.chunkUsed (r.chunkUsed_le chunk h))
        else fetch r
    | none => fetch r

end Reader

def peekU8 : ReaderM U8 := do
  let r ← get
  match r.buffer.front with
  | some byte => pure byte
  | none => do
      Reader.fillBuffer
      let r ← get
      okOr r.buffer.front .eof

def readU8 : ReaderM U8 := do
  let r ← get
  if r.limit ≤ r.offset then throw .eof
  else do
    let byte ← peekU8
    modify fun r => { r with buffer := (r.buffer.popFront).2, offset := r.offset + 1 }
    pure byte

/-! ### The view of the reader -/

namespace Reader

@[simp] theorem view_input (r : Reader) : r.view.input = r.input := rfl

@[simp] theorem view_ending (r : Reader) : r.view.ending = r.stream.ending := rfl

@[simp] theorem view_offset (r : Reader) : r.view.offset = r.offset := rfl

@[simp] theorem view_limit (r : Reader) : r.view.limit = r.limit := rfl

@[simp] theorem input_new (stream : WasmStream) : (Reader.new stream).input = stream.bytes := rfl

theorem endError_congr {r r' : Reader} (h : r'.view = r.view) : r'.endError = r.endError := by
  have hending : r'.stream.ending = r.stream.ending := congrArg View.ending h
  rw [endError, endError, hending]

theorem input_of_next {r : Reader} {chunk : List U8} (h : r.next = some chunk) :
    r.input = r.buffer.toList ++ chunk.drop r.chunkUsed ++ r.stream.bytes := by
  rw [input, h]
  rfl

/-- Copying from the current chunk into the empty buffer moves no byte. -/
theorem input_copy {r : Reader} {chunk : List U8} {used : ℕ} (h : used ≤ chunk.length)
    (hempty : r.buffer.toList = []) :
    (r.copy chunk used h).input = chunk.drop used ++ r.stream.bytes := by
  have hsize := CircularBuffer.toList_eq_nil.1 hempty
  have hfits : r.buffer.size + ((chunk.drop used).take (min (chunk.length - used) 64)).length ≤
      64 := by
    rw [hsize, List.length_take]
    omega
  rw [@input_of_next _ chunk rfl]
  change (r.buffer.pushAll _).toList ++ chunk.drop (used + _) ++ r.stream.bytes = _
  rw [CircularBuffer.toList_pushAll hfits, hempty, List.nil_append, ← List.drop_drop,
    List.take_append_drop]

theorem copy_buffer_ne_nil {r : Reader} {chunk : List U8} {used : ℕ} (h : used < chunk.length)
    (hempty : r.buffer.toList = []) : (r.copy chunk used (Nat.le_of_lt h)).buffer.toList ≠ [] := by
  have hsize := CircularBuffer.toList_eq_nil.1 hempty
  have hfits : r.buffer.size + ((chunk.drop used).take (min (chunk.length - used) 64)).length ≤
      64 := by
    rw [hsize, List.length_take]
    omega
  change (r.buffer.pushAll _).toList ≠ []
  rw [CircularBuffer.toList_pushAll hfits, hempty, List.nil_append, ← List.length_pos_iff,
    List.length_take, List.length_drop]
  omega

/-- A refill from the stream, once the buffer and the current chunk are used up. -/
theorem fetch_apply {r : Reader} (hbuffer : r.buffer.toList = [])
    (hinput : r.input = r.stream.bytes) :
    (r.input = [] ∧ ∃ r', fetch r = .error r.endError r' ∧ r'.view = r.view) ∨
      ∃ r', fetch r = .ok () r' ∧ r'.view = r.view ∧ r'.buffer.toList ≠ [] := by
  obtain ⟨⟨chunks, ending, hne⟩, used, next, buffer, offset, limit, hused⟩ := r
  simp only at hbuffer
  cases chunks with
  | nil =>
      refine Or.inl ⟨hinput, ?_⟩
      cases ending with
      | none =>
          refine ⟨_, rfl, ?_⟩
          rw [view, view, hinput]
          simp [input, hbuffer]
      | some c =>
          refine ⟨_, rfl, ?_⟩
          rw [view, view, hinput]
          simp [input, hbuffer]
  | cons chunk rest =>
      have hchunk : chunk ≠ [] := hne chunk List.mem_cons_self
      have hpos := List.length_pos_iff.2 hchunk
      refine Or.inr ⟨_, if_neg hchunk, ?_, copy_buffer_ne_nil hpos hbuffer⟩
      rw [view, view, input_copy _ hbuffer, hinput]
      rfl

theorem fillBuffer_apply {r : Reader} (hbuffer : r.buffer.toList = []) :
    (r.input = [] ∧ ∃ r', fillBuffer r = .error r.endError r' ∧ r'.view = r.view) ∨
      ∃ r', fillBuffer r = .ok () r' ∧ r'.view = r.view ∧ r'.buffer.toList ≠ [] := by
  have hempty : r.buffer.isEmpty = true := CircularBuffer.isEmpty_iff.2 hbuffer
  unfold fillBuffer
  rw [if_neg (by rw [hempty]; decide)]
  split
  · next chunk hnext =>
    have hinput : r.input = chunk.drop r.chunkUsed ++ r.stream.bytes := by
      rw [input_of_next hnext, hbuffer, List.nil_append]
    by_cases hlt : 0 < chunk.length - r.chunkUsed
    · rw [if_pos hlt]
      refine Or.inr ⟨_, rfl, ?_, copy_buffer_ne_nil (by omega) hbuffer⟩
      rw [view, view, input_copy _ hbuffer, hinput]
      rfl
    · rw [if_neg hlt]
      apply fetch_apply hbuffer
      rw [hinput, List.drop_eq_nil_of_le (by omega), List.nil_append]
  · next hnext =>
    apply fetch_apply hbuffer
    rw [input, hbuffer, hnext]
    simp

end Reader

/-- Peeking at the next byte. -/
theorem peekU8_apply (r : Reader) :
    (r.input = [] ∧ ∃ r', peekU8 r = .error r.endError r' ∧ r'.view = r.view) ∨
      ∃ b bs r', r.input = b :: bs ∧ peekU8 r = .ok b r' ∧ r'.view = r.view ∧
        r'.buffer.front = some b := by
  unfold peekU8
  rw [bind_of_ok (get_apply r)]
  cases hfront : r.buffer.front with
  | some b =>
      have hlist := hfront
      rw [CircularBuffer.front_eq] at hlist
      obtain ⟨bs, hbs⟩ := List.head?_eq_some_iff.1 hlist
      refine Or.inr ⟨b, bs ++ (r.next.getD []).drop r.chunkUsed ++ r.stream.bytes, r, ?_, rfl, rfl,
        hfront⟩
      rw [Reader.input, hbs]
      rfl
  | none =>
      rw [CircularBuffer.front_eq, List.head?_eq_none_iff] at hfront
      rcases Reader.fillBuffer_apply hfront with ⟨hinput, r', hfill, hview⟩ |
          ⟨r', hfill, hview, hne⟩
      · exact Or.inl ⟨hinput, r', bind_of_error hfill, hview⟩
      · obtain ⟨b, bs, hbs⟩ := List.exists_cons_of_ne_nil hne
        have hfront' : r'.buffer.front = some b := by
          rw [CircularBuffer.front_eq, hbs]
          rfl
        have hinput : r.input = r'.input := congrArg Reader.View.input hview.symm
        refine Or.inr ⟨b, bs ++ (r'.next.getD []).drop r'.chunkUsed ++ r'.stream.bytes, r', ?_, ?_,
          hview, hfront'⟩
        · rw [hinput, Reader.input, hbs]
          rfl
        · simp only
          rw [bind_of_ok hfill, bind_of_ok (get_apply r'), hfront']
          rfl

/-- Reading the next byte. -/
theorem readU8_apply (r : Reader) :
    (r.limit ≤ r.offset ∧ readU8 r = .error .eof r) ∨
      (r.offset < r.limit ∧ r.input = [] ∧
        ∃ r', readU8 r = .error r.endError r' ∧ r'.view = r.view) ∨
      (r.offset < r.limit ∧ ∃ b bs r', r.input = b :: bs ∧ readU8 r = .ok b r' ∧
        r'.view = { r.view with input := bs, offset := r.offset + 1 }) := by
  unfold readU8
  rw [bind_of_ok (get_apply r)]
  by_cases hlimit : r.limit ≤ r.offset
  · rw [if_pos hlimit]
    exact Or.inl ⟨hlimit, rfl⟩
  · rw [if_neg hlimit]
    refine Or.inr ?_
    rcases peekU8_apply r with ⟨hinput, r', hpeek, hview⟩ |
        ⟨b, bs, r', hinput, hpeek, hview, hfront⟩
    · exact Or.inl ⟨Nat.lt_of_not_le hlimit, hinput, r', bind_of_error hpeek, hview⟩
    · refine Or.inr ⟨Nat.lt_of_not_le hlimit, b, bs, _, hinput, bind_of_ok hpeek, ?_⟩
      have hinput' : r'.input = r.input := congrArg Reader.View.input hview
      rw [CircularBuffer.front_eq] at hfront
      obtain ⟨cs, hcs⟩ := List.head?_eq_some_iff.1 hfront
      rw [Reader.input, hcs, hinput, List.cons_append, List.cons_append, List.cons.injEq] at hinput'
      rw [← hview, Reader.view, Reader.view, Reader.View.mk.injEq]
      refine ⟨?_, rfl, congrArg (· + 1) (congrArg Reader.View.offset hview), rfl⟩
      rw [← hinput'.2, Reader.input]
      simp [CircularBuffer.toList_popFront, hcs]

def expectU8 (expected : U8) : ReaderM Unit := do
  let byte ← peekU8
  if byte = expected then
    let _ ← readU8
    pure ()
  else throw (.expectedTerminal expected)

/-- `strip_bytes::<N>`. -/
def stripBytes (n : ℕ) : ReaderM (List U8) := collect n readU8

/-- `with_limit`: run `f` with its reads bounded to `len` bytes, and restore the
limit when it returns or fails. -/
def withLimit {ε σ α : Type} (view : σ → Reader) (update : σ → Reader → σ)
    (inject : ValidationError → ε) (len : ℕ) (f : Fallible ε σ α) : Fallible ε σ α := fun s =>
  let r := view s
  if r.offset + len ≤ usizeMax ∧ r.offset + len ≤ r.limit then
    match f (update s { r with limit := r.offset + len }) with
    | .ok a t => .ok a (update t { view t with limit := r.limit })
    | .error e t => .error e (update t { view t with limit := r.limit })
    | .panic => .panic
    | .diverge => .diverge
  else .error (inject .malformedSectionSize) s

/-! ### LEB128 integers -/

/-- The seven payload bits of a LEB128 byte. -/
def lebPayload (byte : U8) : ℕ := byte.toNat % 128

/-- Whether a LEB128 byte announces another one. -/
def lebContinues (byte : U8) : Bool := decide (128 ≤ byte.toNat)

/-- `read_u32`: four bytes carry seven bits each, a fifth one carries four. -/
def readU32 : ReaderM U32 := do
  let b0 ← readU8
  let r0 := lebPayload b0
  if lebContinues b0 = false then return BitVec.ofNat 32 r0
  let b1 ← readU8
  let r1 := r0 + lebPayload b1 * 2 ^ 7
  if lebContinues b1 = false then return BitVec.ofNat 32 r1
  let b2 ← readU8
  let r2 := r1 + lebPayload b2 * 2 ^ 14
  if lebContinues b2 = false then return BitVec.ofNat 32 r2
  let b3 ← readU8
  let r3 := r2 + lebPayload b3 * 2 ^ 21
  if lebContinues b3 = false then return BitVec.ofNat 32 r3
  let b4 ← readU8
  let r4 := r3 + lebPayload b4 * 2 ^ 28
  -- The continuation bit and the three padding bits of the last byte must be zero.
  if b4 &&& 0xF0#8 = 0#8 then return BitVec.ofNat 32 r4
  else throw .malformedInteger

/-- Sign extension of the low `bits` bits of a partial result, as the shift to
the left and the arithmetic shift back to the right compute it. -/
def lebSignExtend (w bits result : ℕ) : BitVec w :=
  (BitVec.ofNat w result <<< (w - bits)).sshiftRight (w - bits)

/-- One byte of a signed LEB128 integer: the accumulated payload, and whether
another byte follows. -/
def readLebByte (acc shift : ℕ) : ReaderM (ℕ × Bool) := do
  let b ← readU8
  return (acc + lebPayload b * 2 ^ shift, lebContinues b)

/-- The last byte of a maximal signed LEB128 integer: no continuation bit, and
the padding bits (`mask`, which includes the sign bit) all equal. -/
def readLebLast (acc shift : ℕ) (mask : U8) : ReaderM ℕ := do
  let b ← readU8
  if lebContinues b then throw .malformedInteger
  else if b &&& mask = mask ∨ b &&& mask = 0#8 then return acc + lebPayload b * 2 ^ shift
  else throw .malformedInteger

/-- `read_i32`: at most five bytes, the last one with four payload bits. -/
def readI32 : ReaderM U32 := do
  let (r0, more) ← readLebByte 0 0
  if more = false then return lebSignExtend 32 7 r0
  let (r1, more) ← readLebByte r0 7
  if more = false then return lebSignExtend 32 14 r1
  let (r2, more) ← readLebByte r1 14
  if more = false then return lebSignExtend 32 21 r2
  let (r3, more) ← readLebByte r2 21
  if more = false then return lebSignExtend 32 28 r3
  let r4 ← readLebLast r3 28 0x78#8
  return BitVec.ofNat 32 r4

/-- `read_i64`: at most ten bytes, the last one with one payload bit. -/
def readI64 : ReaderM U64 := do
  let (r0, more) ← readLebByte 0 0
  if more = false then return lebSignExtend 64 7 r0
  let (r1, more) ← readLebByte r0 7
  if more = false then return lebSignExtend 64 14 r1
  let (r2, more) ← readLebByte r1 14
  if more = false then return lebSignExtend 64 21 r2
  let (r3, more) ← readLebByte r2 21
  if more = false then return lebSignExtend 64 28 r3
  let (r4, more) ← readLebByte r3 28
  if more = false then return lebSignExtend 64 35 r4
  let (r5, more) ← readLebByte r4 35
  if more = false then return lebSignExtend 64 42 r5
  let (r6, more) ← readLebByte r5 42
  if more = false then return lebSignExtend 64 49 r6
  let (r7, more) ← readLebByte r6 49
  if more = false then return lebSignExtend 64 56 r7
  let (r8, more) ← readLebByte r7 56
  if more = false then return lebSignExtend 64 63 r8
  let r9 ← readLebLast r8 63 0x7F#8
  return BitVec.ofNat 64 r9

/-- The little-endian value of a list of bytes. -/
def fromLeBytes : List U8 → ℕ
  | [] => 0
  | b :: bs => b.toNat + 256 * fromLeBytes bs

/-- `read_f32_bits`. -/
def readF32Bits : ReaderM U32 := do
  let bytes ← stripBytes 4
  return BitVec.ofNat 32 (fromLeBytes bytes)

/-- `read_f64_bits`. -/
def readF64Bits : ReaderM U64 := do
  let bytes ← stripBytes 8
  return BitVec.ofNat 64 (fromLeBytes bytes)

/-- `skip`. -/
def skip (len : ℕ) : ReaderM Unit := iterate len (do let _ ← readU8; pure ())

/-- `read_vec_stack::<SIZE>`: a vector with a static capacity. -/
def readVecStack {α : Type} (size : ℕ) (readElement : ReaderM α) : ReaderM (List α) := do
  let len ← readU32
  let remaining ← gets Reader.bytesRemaining
  if size < len.toNat ∨ remaining < len.toNat then throw .vecTooLong
  else collect len.toNat readElement

end SpaceWasm
