import Polyphony.Proofs.Wave.Writing

/-! # Reading wave files

A RIFF file is a row of chunks, each with a name and a size in front of its body. A wave file is one
chunk that holds a format and the samples, and reading the one that holds some samples gives them
back.
-/
namespace Polyphony.Wave

def number : List UInt8 → Nat
  | [] => 0
  | b :: bytes => b.toNat + 256 * number bytes

theorem littleEndian_length (width n : Nat) : (littleEndian width n).length = width := by
  induction width generalizing n with
  | zero => rfl
  | succ width ih => rw [littleEndian, List.length_cons, ih]

theorem number_littleEndian (width n : Nat) : number (littleEndian width n) = n % 256 ^ width := by
  induction width generalizing n with
  | zero => rw [littleEndian, number, Nat.pow_zero, Nat.mod_one]
  | succ width ih =>
    have hbyte : (UInt8.ofNat (n % 256)).toNat = n % 256 := by
      rw [UInt8.toNat_ofNat', Nat.mod_mod]
    rw [littleEndian, number, hbyte, ih, Nat.pow_succ', Nat.mod_mul]

def sampleOf (low high : UInt8) : Int16 :=
  let n := number [low, high]
  .ofInt (if n < 2 ^ 15 then n else n - 2 ^ 16)

def samples? : List UInt8 → Option (List Int16)
  | [] => some []
  | [_] => none
  | low :: high :: bytes => (samples? bytes).map (sampleOf low high :: ·)

theorem sampleBytes_eq (s : Int16) : ∃ low high, sampleBytes s = [low, high] ∧
    sampleOf low high = s := by
  refine ⟨_, _, rfl, ?_⟩
  have hnumber : number (sampleBytes s) = s.toUInt16.toNat := by
    rw [sampleBytes, number_littleEndian]
    exact Nat.mod_eq_of_lt s.toUInt16.toNat_lt
  have hvalue : s.toInt = if s.toUInt16.toNat < 2 ^ 15 then (s.toUInt16.toNat : Int)
      else s.toUInt16.toNat - 2 ^ 16 := by
    have hcond := BitVec.toInt_eq_toNat_cond s.toBitVec
    have hlt := s.toUInt16.toNat_lt
    change s.toInt = if 2 * s.toUInt16.toNat < 2 ^ 16 then (s.toUInt16.toNat : Int)
      else s.toUInt16.toNat - 2 ^ 16 at hcond
    rw [hcond]
    split <;> split <;> omega
  change Int16.ofInt (if number (sampleBytes s) < 2 ^ 15 then number (sampleBytes s)
    else number (sampleBytes s) - 2 ^ 16) = s
  rw [hnumber, ← hvalue, Int16.ofInt_toInt]

theorem samples?_flatMap (samples : List Int16) :
    samples? (samples.flatMap sampleBytes) = some samples := by
  induction samples with
  | nil => rfl
  | cons s samples ih =>
    obtain ⟨low, high, hbytes, hsample⟩ := sampleBytes_eq s
    rw [List.flatMap_cons, hbytes]
    change (samples? (samples.flatMap sampleBytes)).map (sampleOf low high :: ·) = _
    rw [ih, hsample, Option.map_some]

theorem flatMap_sampleBytes_length (samples : List Int16) :
    (samples.flatMap sampleBytes).length = 2 * samples.length := by
  induction samples with
  | nil => rfl
  | cons s samples ih =>
    rw [List.flatMap_cons, List.length_append, sampleBytes, littleEndian_length, ih,
      List.length_cons, Nat.mul_succ, Nat.add_comm]

/-- Four bytes that say what a chunk is, and the bytes it holds. -/
structure Chunk where
  name : List UInt8
  body : List UInt8
deriving DecidableEq

def chunkSize (bytes : List UInt8) : Nat := number ((bytes.drop 4).take 4)

/-- The first chunk of a row and the bytes behind it. A body of odd size is padded with a byte. -/
def chunk? (bytes : List UInt8) : Option (Chunk × List UInt8) :=
  let size := chunkSize bytes
  if 8 + size ≤ bytes.length then
    some (⟨bytes.take 4, (bytes.drop 8).take size⟩, bytes.drop (8 + size + size % 2))
  else none

theorem chunk?_rest_lt {bytes rest : List UInt8} {c : Chunk} (h : chunk? bytes = some (c, rest)) :
    rest.length < bytes.length := by
  unfold chunk? at h
  dsimp only at h
  split at h
  · cases h
    rw [List.length_drop]
    omega
  · cases h

/-- All chunks of a row that ends with the last of them. -/
def chunks? (bytes : List UInt8) : Option (List Chunk) :=
  if bytes.isEmpty then some []
  else
    match _h : chunk? bytes with
    | none => none
    | some (c, rest) => (chunks? rest).map (c :: ·)
termination_by bytes.length
decreasing_by exact chunk?_rest_lt ‹_›

theorem chunks?_nil : chunks? [] = some [] := by
  rw [chunks?]
  rfl

theorem chunks?_cons {bytes rest : List UInt8} {c : Chunk} (h : chunk? bytes = some (c, rest)) :
    chunks? bytes = (chunks? rest).map (c :: ·) := by
  have hlength := chunk?_rest_lt h
  have hne : bytes.isEmpty = false := by
    cases bytes with
    | nil => exact absurd hlength (Nat.not_lt_zero _)
    | cons => rfl
  rw [chunks?, hne, if_neg Bool.false_ne_true]
  split
  · rename_i hnone
    rw [h] at hnone
    cases hnone
  · rename_i hsome
    rw [h] at hsome
    cases hsome
    rfl

def Chunk.bytes (c : Chunk) : List UInt8 :=
  c.name ++ littleEndian 4 c.body.length ++ c.body ++ List.replicate (c.body.length % 2) 0

/-- A chunk that can stand in a row: its name has four bytes and its size fits into four more. -/
structure Chunk.Fits (c : Chunk) : Prop where
  name : c.name.length = 4
  size : c.body.length < 256 ^ 4

theorem Chunk.bytes_append (c : Chunk) (rest : List UInt8) :
    c.bytes ++ rest = c.name ++ (littleEndian 4 c.body.length ++
      (c.body ++ (List.replicate (c.body.length % 2) 0 ++ rest))) := by
  simp only [Chunk.bytes, List.append_assoc]

theorem Chunk.bytes_length {c : Chunk} (h : c.name.length = 4) :
    c.bytes.length = 8 + c.body.length + c.body.length % 2 := by
  rw [bytes, List.length_append, List.length_append, List.length_append, h,
    littleEndian_length, List.length_replicate]

namespace Chunk.Fits

variable {c : Chunk}

theorem chunkSize_append (h : c.Fits) (rest : List UInt8) :
    chunkSize (c.bytes ++ rest) = c.body.length := by
  rw [chunkSize, bytes_append, List.drop_left' h.name, List.take_left' (littleEndian_length _ _),
    number_littleEndian, Nat.mod_eq_of_lt h.size]

/-- A chunk is read back whatever stands behind it. -/
theorem chunk?_append (h : c.Fits) (rest : List UInt8) :
    chunk? (c.bytes ++ rest) = some (c, rest) := by
  have hfront : (c.name ++ littleEndian 4 c.body.length).length = 8 := by
    rw [List.length_append, h.name, littleEndian_length]
  have hname : (c.bytes ++ rest).take 4 = c.name := by
    rw [bytes_append, List.take_left' h.name]
  have hbody : ((c.bytes ++ rest).drop 8).take c.body.length = c.body := by
    rw [bytes_append, ← List.append_assoc, List.drop_left' hfront, List.take_left]
  have hfits : 8 + c.body.length ≤ (c.bytes ++ rest).length := by
    rw [List.length_append, bytes_length h.name]
    omega
  rw [chunk?, h.chunkSize_append, if_pos hfits, hname, hbody, List.drop_left' (bytes_length h.name)]

end Chunk.Fits

theorem chunks?_flatMap {cs : List Chunk} (h : ∀ c ∈ cs, c.Fits) :
    chunks? (cs.flatMap Chunk.bytes) = some cs := by
  induction cs with
  | nil => exact chunks?_nil
  | cons c cs ih =>
    obtain ⟨hc, hcs⟩ := List.forall_mem_cons.mp h
    rw [List.flatMap_cons, chunks?_cons (hc.chunk?_append _), ih hcs, Option.map_some]

structure Format where
  encoding : Nat
  channels : Nat
  rate : Nat
  byteRate : Nat
  blockAlign : Nat
  bits : Nat
deriving DecidableEq, Repr

def format? (body : List UInt8) : Option Format :=
  let field (start width : Nat) := number ((body.drop start).take width)
  if 16 ≤ body.length then
    some ⟨field 0 2, field 2 2, field 4 4, field 8 4, field 12 2, field 14 2⟩
  else none

structure Recording where
  format : Format
  samples : List Int16
deriving DecidableEq, Repr

/-- The chunks of a wave file, which are all inside of one. -/
def parts? (bytes : List UInt8) : Option (List Chunk) :=
  match chunks? bytes with
  | some [c] =>
    if c.name = ascii "RIFF" ∧ c.body.take 4 = ascii "WAVE" then chunks? (c.body.drop 4) else none
  | _ => none

/-- The bodies of the format chunk of a wave file and of the data chunk that ends it. -/
def bodies? (bytes : List UInt8) : Option (List UInt8 × List UInt8) :=
  match parts? bytes with
  | some [format, data] =>
    if format.name = ascii "fmt " ∧ data.name = ascii "data" then some (format.body, data.body)
    else none
  | _ => none

def decode? (bytes : List UInt8) : Option Recording :=
  (bodies? bytes).bind fun bodies =>
    (format? bodies.1).bind fun f => (samples? bodies.2).map (Recording.mk f)

def formatPart : Chunk := ⟨ascii "fmt ", (formatChunk spec).drop 8⟩

def dataPart (samples : List Int16) : Chunk := ⟨ascii "data", samples.flatMap sampleBytes⟩

def wavePart (samples : List Int16) : Chunk :=
  ⟨ascii "RIFF", ascii "WAVE" ++ [formatPart, dataPart samples].flatMap Chunk.bytes⟩

theorem dataPart_bytes (samples : List Int16) : (dataPart samples).bytes =
    ascii "data" ++ littleEndian 4 (2 * samples.length) ++ samples.flatMap sampleBytes := by
  rw [Chunk.bytes, dataPart, flatMap_sampleBytes_length, Nat.mul_mod_right, List.replicate_zero,
    List.append_nil]

theorem wavePart_size (samples : List Int16) :
    (wavePart samples).body.length = 36 + 2 * samples.length := by
  have hfront : (ascii "WAVE" ++ formatPart.bytes).length = 28 := by decide
  have hname : (ascii "data").length = 4 := by decide
  rw [wavePart, List.flatMap_cons, List.flatMap_singleton, ← List.append_assoc, List.length_append,
    hfront, dataPart_bytes, List.length_append, List.length_append, hname, littleEndian_length,
    flatMap_sampleBytes_length]
  omega

theorem container_eq (samples : List Int16) : container spec samples = (wavePart samples).bytes := by
  have hformat : formatPart.bytes = formatChunk spec := by decide
  have heven : (36 + 2 * samples.length) % 2 = 0 := by omega
  rw [Chunk.bytes, wavePart_size, heven, List.replicate_zero, List.append_nil, wavePart,
    List.flatMap_cons, List.flatMap_singleton, hformat, dataPart_bytes, container]
  simp only [List.append_assoc]

theorem container_length (samples : List Int16) :
    (container spec samples).length = 44 + 2 * samples.length := by
  rw [container_eq, Chunk.bytes_length rfl, wavePart_size]
  omega

section

variable {samples : List Int16} (h : 36 + 2 * samples.length < 2 ^ 32)
include h

theorem wavePart_fits : (wavePart samples).Fits := by
  refine ⟨rfl, ?_⟩
  rw [wavePart_size]
  omega

theorem dataPart_fits : (dataPart samples).Fits := by
  refine ⟨rfl, ?_⟩
  rw [dataPart, flatMap_sampleBytes_length]
  omega

theorem parts?_container : parts? (container spec samples) = some [formatPart, dataPart samples] := by
  have hfile : chunks? (container spec samples) = some [wavePart samples] := by
    rw [container_eq, ← List.flatMap_singleton Chunk.bytes]
    exact chunks?_flatMap (List.forall_mem_singleton.mpr (wavePart_fits h))
  have hform : (ascii "WAVE").length = 4 := by decide
  rw [parts?, hfile]
  dsimp only [wavePart]
  rw [List.take_left' hform, List.drop_left' hform, if_pos ⟨rfl, rfl⟩]
  exact chunks?_flatMap (List.forall_mem_cons.mpr
    ⟨⟨rfl, by decide⟩, List.forall_mem_singleton.mpr (dataPart_fits h)⟩)

theorem bodies?_container :
    bodies? (container spec samples) = some (formatPart.body, samples.flatMap sampleBytes) := by
  rw [bodies?, parts?_container h]
  exact if_pos ⟨rfl, rfl⟩

theorem decode?_container :
    decode? (container spec samples) = some ⟨⟨1, 1, 44100, 88200, 2, 16⟩, samples⟩ := by
  have hformat : format? formatPart.body = some ⟨1, 1, 44100, 88200, 2, 16⟩ := by decide
  rw [decode?, bodies?_container h, Option.bind_some, hformat, Option.bind_some, samples?_flatMap,
    Option.map_some]

theorem chunkSize_container : chunkSize (container spec samples) = (container spec samples).length - 8 := by
  rw [container_length, container_eq, ← List.append_nil (wavePart samples).bytes,
    (wavePart_fits h).chunkSize_append, wavePart_size]
  omega

end

/-- A file that is within the range of its sizes loses nothing, whoever writes it: it can be written,
it is read back as one channel of the same samples, and no other samples give that file. -/
theorem encode_lossless {ε : Type} (w : Writer ε) (hw : w.Documented) (samples : List Int16)
    (h : 36 + 2 * samples.length < 2 ^ 32) :
    ∃ bytes, encodeBy w samples = .ok bytes ∧
      chunkSize bytes = bytes.length - 8 ∧
      (∃ format data, bodies? bytes = some (format, data) ∧ data.length = 2 * samples.length) ∧
      (∃ f, decode? bytes = some ⟨f, samples⟩ ∧ f.encoding = 1 ∧ f.channels = 1 ∧
        f.rate = 44100 ∧ f.bits = 16 ∧ f.blockAlign = f.channels * f.bits / 8 ∧
        f.byteRate = f.rate * f.blockAlign) ∧
      ∀ other, 36 + 2 * other.length < 2 ^ 32 → encodeBy w other = .ok bytes → other = samples := by
  refine ⟨container spec samples, hw.encodeBy_eq h, chunkSize_container h,
    ⟨_, _, bodies?_container h, flatMap_sampleBytes_length samples⟩,
    ⟨_, decode?_container h, by decide⟩, fun other hother hsame => ?_⟩
  rw [hw.encodeBy_eq hother] at hsame
  have hread := decode?_container hother
  rw [Except.ok.inj hsame, decode?_container h] at hread
  exact (congrArg Recording.samples (Option.some.inj hread)).symm

/-- The ends of the range of a sample, and both sides of zero, by the writer in memory. -/
theorem encode_lossless_ends : Writer.memory.Documented ∧
    encodeBy .memory [-32768, -1, 0, 32767] = .ok (encode [-32768, -1, 0, 32767]) ∧
    (encode [-32768, -1, 0, 32767]).length = 52 ∧
    ∃ f, decode? (encode [-32768, -1, 0, 32767]) = some ⟨f, [-32768, -1, 0, 32767]⟩ ∧
      f.channels = 1 := by
  obtain ⟨bytes, hbytes, -, -, ⟨f, hread, -, hchannels, -⟩, -⟩ :=
    encode_lossless .memory Writer.memory_documented [-32768, -1, 0, 32767] (by decide)
  obtain rfl : bytes = encode [-32768, -1, 0, 32767] := by rw [encode, hbytes]
  exact ⟨Writer.memory_documented, hbytes, rfl, f, hread, hchannels⟩

end Polyphony.Wave
