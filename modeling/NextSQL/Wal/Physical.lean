import NextSQL.Wal.Log

/-!
# The bytes of the log

A physical record is a header of 40 bytes and the sealed payload. The header
holds the LSN and the length of the payload in the clear, under a checksum; the
bytes up to the LSN are also the additional data of the seal. A segment file
starts with a header of 64 bytes that names the segment and its start LSN.

The cipher is a parameter: all that is used of it is that a sealed payload
opens again. Checksums are CRC32C.
-/

namespace NextSQL.Wal

open ByteFields List

/-! ## Checksums and the cipher -/

/-- One bit of CRC32C, the lowest first. -/
def crcBit (crc : Nat) : Nat :=
  if crc % 2 = 1 then (crc / 2) ^^^ 0x82F63B78 else crc / 2

def crcByte (crc : Nat) (b : Byte) : Nat := (crcBit^[8]) (crc ^^^ b.val)

def crc32c (data : Bytes) : Nat := ((data.foldl crcByte 0xFFFFFFFF) ^^^ 0xFFFFFFFF) % 2 ^ 32

/-- `checksum.Write` at the end of the data. -/
def withChecksum (data : Bytes) : Bytes := data ++ le 4 (crc32c data)

/-- `checksum.Verify` of data whose last four bytes are the checksum. -/
def verifyChecksum (data : Bytes) (offset : Nat) : Bool :=
  decide (getLE (slice data offset 4) = crc32c (data.take offset))

/-- A data key: its version, and how it seals and opens. -/
structure Cipher where
  version : Nat
  sealBytes : (generation : Nat) → (aad plaintext : Bytes) → Bytes × Bytes
  openBytes : (nonce aad ciphertext : Bytes) → Option Bytes
  version_lt : version < 2 ^ 32
  length_nonce : ∀ generation aad plaintext, (sealBytes generation aad plaintext).1.length = 12
  length_ciphertext : ∀ generation aad plaintext,
    (sealBytes generation aad plaintext).2.length = plaintext.length + authTagSize
  opens : ∀ generation aad plaintext, openBytes (sealBytes generation aad plaintext).1 aad
    (sealBytes generation aad plaintext).2 = some plaintext

/-! ## Records -/

def magic : Nat := 0x4C57534E
def currentVersion : Nat := 1
def cipherAES256GCM : Nat := 1

/-- The longest ciphertext a header may announce. -/
def maxCTLen : Nat := logicalPageSize + payloadHeaderSize + authTagSize + 256

def RecType.code : RecType → Nat
  | .begin => 1
  | .insert => 2
  | .delete => 3
  | .update => 4
  | .pageImage => 5
  | .commit => 6
  | .abort => 7
  | .checkpoint => 8
  | .treeMeta => 9
  | .allocState => 10
  | .undo => 11
  | .change => 12
  | .pageDelta => 13

def RecType.ofCode : Nat → Option RecType
  | 1 => some .begin
  | 2 => some .insert
  | 3 => some .delete
  | 4 => some .update
  | 5 => some .pageImage
  | 6 => some .commit
  | 7 => some .abort
  | 8 => some .checkpoint
  | 9 => some .treeMeta
  | 10 => some .allocState
  | 11 => some .undo
  | 12 => some .change
  | 13 => some .pageDelta
  | _ => none

/-- The fields of a payload, the body last. -/
def payloadFields (r : Record) : List Bytes :=
  [le 2 r.type.code, le 2 r.flags, le 8 r.txnID, le 8 r.prevLSN, le 8 r.pageID, r.body]

def encodePayload (r : Record) : Bytes := (payloadFields r).flatten

def decodePayload (lsn : LSN) (payload : Bytes) : Except Nerr Record :=
  if payload.length < payloadHeaderSize then
    .error ⟨.invalidFormat, "wal.decodePayload", "truncated payload"⟩
  else match RecType.ofCode (getLE (slice payload 0 2)) with
    | none => .error ⟨.invalidFormat, "wal.decodePayload", "unknown record type"⟩
    | some type => .ok
        { type := type, flags := getLE (slice payload 2 2), lsn := lsn,
          txnID := getLE (slice payload 4 8), prevLSN := getLE (slice payload 12 8),
          pageID := getLE (slice payload 20 8), body := payload.drop payloadHeaderSize }

/-- The fields of a header that the seal covers. -/
def sealedFields (version : Nat) (lsn : LSN) : List Bytes :=
  [le 4 magic, le 2 currentVersion, le 2 cipherAES256GCM, le 4 version, le 8 lsn]

def encodeHeader (version : Nat) (lsn : LSN) (ctLen : Nat) (nonce : Bytes) : Bytes :=
  withChecksum (sealedFields version lsn ++ [le 4 ctLen, nonce]).flatten

def encodePhysical (c : Cipher) (lsn : LSN) (generation : Nat) (payload : Bytes) : Bytes :=
  let (nonce, ct) := c.sealBytes generation (sealedFields c.version lsn).flatten payload
  encodeHeader c.version lsn ct.length nonce ++ ct

/-- The bytes of a record as they are written. -/
def physical (c : Cipher) (f : Frame) : Bytes :=
  encodePhysical c f.lsn f.gen (encodePayload f.record)

structure PhysicalHeader where
  keyVersion : Nat
  lsn : LSN
  ctLen : Nat
deriving DecidableEq, Repr

def parseHeader (hdr : Bytes) : Except Nerr PhysicalHeader :=
  if hdr.length < headerSize then
    .error ⟨.invalidFormat, "wal.parseHeader", "truncated header"⟩
  else if getLE (slice hdr 0 4) ≠ magic then
    .error ⟨.invalidFormat, "wal.parseHeader", "bad WAL magic"⟩
  else if ¬ verifyChecksum (hdr.take headerSize) 36 then
    .error ⟨.corruption, "wal.parseHeader", "checksum"⟩
  else if getLE (slice hdr 4 2) ≠ currentVersion then
    .error ⟨.invalidFormat, "wal.parseHeader", "unsupported WAL record version"⟩
  else if getLE (slice hdr 6 2) ≠ cipherAES256GCM then
    .error ⟨.crypto, "wal.parseHeader", "unsupported cipher suite"⟩
  else if getLE (slice hdr 12 8) = 0 then
    .error ⟨.corruption, "wal.parseHeader", "LSN 0 is reserved"⟩
  else if getLE (slice hdr 20 4) < authTagSize ∨ maxCTLen < getLE (slice hdr 20 4) then
    .error ⟨.invalidFormat, "wal.parseHeader", "invalid ciphertext length"⟩
  else .ok ⟨getLE (slice hdr 8 4), getLE (slice hdr 12 8), getLE (slice hdr 20 4)⟩

def isZeroHeader (hdr : Bytes) : Bool := hdr.all (· == 0)

def decodePhysical (c : Cipher) (hdr ct : Bytes) : Except Nerr Record :=
  match parseHeader hdr with
  | .error e => .error e
  | .ok h =>
    if ct.length ≠ h.ctLen then
      .error ⟨.invalidFormat, "wal.decodePhysical", "ciphertext length mismatch"⟩
    else if h.keyVersion ≠ c.version then
      .error ⟨.crypto, "crypto.MemoryKeyProvider.Key", "unknown key version"⟩
    else match c.openBytes (slice hdr 24 12) (hdr.take 20) ct with
      | none => .error ⟨.crypto, "crypto.OpenBytes", "authentication failed"⟩
      | some payload => decodePayload h.lsn payload

/-! ## Segment headers -/

def segmentMagic : Nat := 0x5357534E

/-- The two identifiers of a database, of 16 bytes each. -/
structure Identity where
  database : Bytes
  file : Bytes
  length_database : database.length = 16
  length_file : file.length = 16

structure SegmentHeader where
  id : Nat
  startLSN : LSN
deriving DecidableEq, Repr

def segmentFields (ident : Identity) (h : SegmentHeader) : List Bytes :=
  [le 4 segmentMagic, le 2 currentVersion, le 2 0, le 8 h.id, le 8 h.startLSN, ident.database,
   ident.file, le 4 0]

def encodeSegmentHeader (ident : Identity) (h : SegmentHeader) : Bytes :=
  withChecksum (segmentFields ident h).flatten

def decodeSegmentHeader (buf : Bytes) (want : Identity) : Except Nerr SegmentHeader :=
  if buf.length < segmentHeaderSize then
    .error ⟨.invalidFormat, "wal.decodeSegmentHeader", "truncated segment header"⟩
  else if getLE (slice buf 0 4) ≠ segmentMagic then
    .error ⟨.invalidFormat, "wal.decodeSegmentHeader", "bad segment magic"⟩
  else if getLE (slice buf 4 2) ≠ currentVersion then
    .error ⟨.invalidFormat, "wal.decodeSegmentHeader", "unsupported segment version"⟩
  else if ¬ verifyChecksum (buf.take segmentHeaderSize) 60 then
    .error ⟨.corruption, "wal.decodeSegmentHeader", "checksum"⟩
  else if slice buf 24 16 ≠ want.database ∨ slice buf 40 16 ≠ want.file then
    .error ⟨.corruption, "wal.decodeSegmentHeader", "segment identity does not match database"⟩
  else if getLE (slice buf 8 8) = 0 ∨ getLE (slice buf 16 8) = 0 then
    .error ⟨.corruption, "wal.decodeSegmentHeader", "invalid segment header fields"⟩
  else .ok ⟨getLE (slice buf 8 8), getLE (slice buf 16 8)⟩

/-! ## What is encoded is decoded -/

theorem crc32c_lt (data : Bytes) : crc32c data < 256 ^ 4 := Nat.mod_lt _ (by decide)

theorem verify_withChecksum (data : Bytes) :
    verifyChecksum (withChecksum data) data.length := by
  have field : slice (withChecksum data) data.length 4 = le 4 (crc32c data) := by
    simp [slice, withChecksum]
  have front : (withChecksum data).take data.length = data := by simp [withChecksum]
  rw [verifyChecksum, field, front, getLE_le_of_lt (crc32c_lt data)]
  exact decide_eq_true rfl

section Header

variable {version lsn ctLen : Nat} {nonce : Bytes}

theorem length_headerFields (length : nonce.length = 12) :
    (sealedFields version lsn ++ [le 4 ctLen, nonce]).flatten.length = 36 := by
  simp [sealedFields, length]

theorem length_encodeHeader (length : nonce.length = 12) :
    (encodeHeader version lsn ctLen nonce).length = headerSize := by
  simp only [encodeHeader, withChecksum, length_append, length_headerFields length, length_le]
  rfl

/-- The fields of a header, up to the checksum. -/
theorem slice_encodeHeader (length : nonce.length = 12) {field : Bytes} {offset width : Nat} (k : Nat)
    (here : (sealedFields version lsn ++ [le 4 ctLen, nonce])[k]? = some field)
    (starts : (((sealedFields version lsn ++ [le 4 ctLen, nonce]).take k).map List.length).sum =
      offset)
    (long : field.length = width) (within : offset + width ≤ 36) :
    slice (encodeHeader version lsn ctLen nonce) offset width = field :=
  (slice_append _ (by rw [length_headerFields length]; exact within)).trans
    (slice_flatten k here starts long)

theorem parse_encodeHeader (versions : version < 2 ^ 32) (lsns : lsn < 2 ^ 64) (some : lsn ≠ 0)
    (length : nonce.length = 12) (tag : authTagSize ≤ ctLen) (short : ctLen ≤ maxCTLen) :
    parseHeader (encodeHeader version lsn ctLen nonce) = .ok ⟨version, lsn, ctLen⟩ := by
  have magics : slice (encodeHeader version lsn ctLen nonce) 0 4 = le 4 magic :=
    slice_encodeHeader length 0 rfl rfl rfl (by decide)
  have format : slice (encodeHeader version lsn ctLen nonce) 4 2 = le 2 currentVersion :=
    slice_encodeHeader length 1 rfl rfl rfl (by decide)
  have suite : slice (encodeHeader version lsn ctLen nonce) 6 2 = le 2 cipherAES256GCM :=
    slice_encodeHeader length 2 rfl rfl rfl (by decide)
  have key : slice (encodeHeader version lsn ctLen nonce) 8 4 = le 4 version :=
    slice_encodeHeader length 3 rfl rfl rfl (by decide)
  have number : slice (encodeHeader version lsn ctLen nonce) 12 8 = le 8 lsn :=
    slice_encodeHeader length 4 rfl rfl rfl (by decide)
  have size : slice (encodeHeader version lsn ctLen nonce) 20 4 = le 4 ctLen :=
    slice_encodeHeader length 5 rfl rfl rfl (by decide)
  have all : (encodeHeader version lsn ctLen nonce).length = headerSize :=
    length_encodeHeader length
  have checked : verifyChecksum ((encodeHeader version lsn ctLen nonce).take headerSize) 36 := by
    rw [take_of_length_le all.le, ← length_headerFields length]
    exact verify_withChecksum _
  have keyed : getLE (le 4 version) = version := getLE_le_of_lt (versions.trans_eq (by decide))
  have numbered : getLE (le 8 lsn) = lsn := getLE_le_of_lt (lsns.trans_eq (by decide))
  have sized : getLE (le 4 ctLen) = ctLen := getLE_le_of_lt (short.trans_lt (by decide))
  rw [parseHeader, magics, format, suite, key, number, size, checked, keyed, numbered, sized,
    if_neg (by rw [all]; exact lt_irrefl _), if_neg (by decide), if_neg (by simp),
    if_neg (by decide), if_neg (by decide), if_neg some,
    if_neg (not_or.mpr ⟨not_lt.mpr tag, not_lt.mpr short⟩)]

end Header

/-- The numbers of a record fit into their fields, and its body into a physical record. -/
structure Frame.Fits (f : Frame) : Prop where
  flags : f.record.flags < 2 ^ 16
  lsn : 1 ≤ f.lsn ∧ f.lsn < 2 ^ 64
  txnID : f.record.txnID < 2 ^ 64
  prevLSN : f.record.prevLSN < 2 ^ 64
  pageID : f.record.pageID < 2 ^ 64
  body : f.record.body.length ≤ logicalPageSize + 256

@[simp] theorem RecType.ofCode_code (type : RecType) : RecType.ofCode type.code = some type := by
  cases type <;> rfl

theorem length_encodePayload (r : Record) :
    (encodePayload r).length = payloadHeaderSize + r.body.length := by
  simp only [encodePayload, payloadFields, flatten_cons, flatten_nil, length_append,
    length_le, length_nil, payloadHeaderSize]
  omega

theorem decode_encodePayload {f : Frame} (fits : f.Fits) :
    decodePayload f.lsn (encodePayload f.record) = .ok f.record := by
  have type : slice (encodePayload f.record) 0 2 = le 2 f.record.type.code :=
    slice_flatten 0 rfl rfl rfl
  have flags : slice (encodePayload f.record) 2 2 = le 2 f.record.flags :=
    slice_flatten 1 rfl rfl rfl
  have txnID : slice (encodePayload f.record) 4 8 = le 8 f.record.txnID :=
    slice_flatten 2 rfl rfl rfl
  have prevLSN : slice (encodePayload f.record) 12 8 = le 8 f.record.prevLSN :=
    slice_flatten 3 rfl rfl rfl
  have pageID : slice (encodePayload f.record) 20 8 = le 8 f.record.pageID :=
    slice_flatten 4 rfl rfl rfl
  have body : (encodePayload f.record).drop payloadHeaderSize = f.record.body := by
    have split : encodePayload f.record =
        ((payloadFields f.record).take 5).flatten ++ f.record.body := by
      simp [encodePayload, payloadFields]
    rw [split]
    exact drop_left' rfl
  have coded := getLE_le_of_lt (show f.record.type.code < 256 ^ 2 by cases f.record.type <;> decide)
  have flagged : getLE (le 2 f.record.flags) = f.record.flags :=
    getLE_le_of_lt (fits.flags.trans_eq (by decide))
  have owned : getLE (le 8 f.record.txnID) = f.record.txnID :=
    getLE_le_of_lt (fits.txnID.trans_eq (by decide))
  have linked : getLE (le 8 f.record.prevLSN) = f.record.prevLSN :=
    getLE_le_of_lt (fits.prevLSN.trans_eq (by decide))
  have placed : getLE (le 8 f.record.pageID) = f.record.pageID :=
    getLE_le_of_lt (fits.pageID.trans_eq (by decide))
  rw [decodePayload, if_neg (by rw [length_encodePayload]; omega), type, flags, txnID, prevLSN,
    pageID, body, coded, flagged, owned, linked, placed, RecType.ofCode_code]
  rfl

section Sealed

variable (c : Cipher) {f : Frame}

/-- The parts of a physical record. -/
theorem physical_parts (f : Frame) : ∃ nonce ct : Bytes, nonce.length = 12 ∧
    ct.length = payloadHeaderSize + f.record.body.length + authTagSize ∧
    c.openBytes nonce (sealedFields c.version f.lsn).flatten ct = some (encodePayload f.record) ∧
    physical c f = encodeHeader c.version f.lsn ct.length nonce ++ ct := by
  refine ⟨_, _, c.length_nonce _ _ _, ?_, c.opens f.gen _ _, rfl⟩
  rw [c.length_ciphertext, length_encodePayload]

theorem length_physical (f : Frame) : (physical c f).length = f.size := by
  obtain ⟨nonce, ct, length, sized, -, parts⟩ := physical_parts c f
  rw [parts, length_append, length_encodeHeader length, sized, Frame.size]
  omega

theorem parse_physical (fits : f.Fits) :
    parseHeader ((physical c f).take headerSize) = .ok ⟨c.version, f.lsn, f.size - headerSize⟩ := by
  obtain ⟨nonce, ct, length, sized, -, parts⟩ := physical_parts c f
  have body := fits.body
  have size : f.size - headerSize = ct.length := by
    rw [sized, Frame.size]
    omega
  rw [parts, take_left' (length_encodeHeader length), size]
  have tag : authTagSize ≤ ct.length := by
    rw [sized]
    exact Nat.le_add_left _ _
  have short : ct.length ≤ maxCTLen := sized.trans_le (by unfold maxCTLen; omega)
  have some : f.lsn ≠ 0 := Nat.ne_of_gt fits.lsn.1
  exact parse_encodeHeader c.version_lt fits.lsn.2 some length tag short

theorem decode_physical (fits : f.Fits) :
    decodePhysical c ((physical c f).take headerSize) ((physical c f).drop headerSize) =
      .ok f.record := by
  have parsed := parse_physical c fits
  obtain ⟨nonce, ct, length, sized, opened, parts⟩ := physical_parts c f
  have size : f.size - headerSize = ct.length := by
    rw [sized, Frame.size]
    omega
  have header : (encodeHeader c.version f.lsn ct.length nonce).length = headerSize :=
    length_encodeHeader length
  rw [parts, take_left' header] at parsed ⊢
  have nonces : slice (encodeHeader c.version f.lsn ct.length nonce) 24 12 = nonce :=
    slice_encodeHeader length 6 rfl rfl length (by decide)
  have aad : (encodeHeader c.version f.lsn ct.length nonce).take 20 =
      (sealedFields c.version f.lsn).flatten := by
    rw [encodeHeader, withChecksum, flatten_append, append_assoc]
    exact take_left' (by simp [sealedFields])
  rw [drop_left' header, decodePhysical, parsed]
  simp only [size, nonces, aad, opened, ne_eq, not_true_eq_false, if_false]
  exact decode_encodePayload fits

end Sealed

/-! ## Segment headers are decoded -/

/-- The numbers of a segment header fit into their fields. -/
structure SegmentHeader.Fits (h : SegmentHeader) : Prop where
  id : 1 ≤ h.id ∧ h.id < 2 ^ 64
  startLSN : 1 ≤ h.startLSN ∧ h.startLSN < 2 ^ 64

theorem length_encodeSegmentHeader (ident : Identity) (h : SegmentHeader) :
    (encodeSegmentHeader ident h).length = segmentHeaderSize := by
  simp [encodeSegmentHeader, withChecksum, segmentFields, ident.length_database,
    ident.length_file, segmentHeaderSize]

theorem decode_encodeSegmentHeader (ident : Identity) {h : SegmentHeader} (fits : h.Fits)
    (rest : Bytes) : decodeSegmentHeader (encodeSegmentHeader ident h ++ rest) ident = .ok h := by
  have body : (segmentFields ident h).flatten.length = 60 := by
    simp [segmentFields, ident.length_database, ident.length_file]
  have all := length_encodeSegmentHeader ident h
  let file := encodeSegmentHeader ident h ++ rest
  have field : ∀ {f : Bytes} {offset width : Nat} (k : Nat), (segmentFields ident h)[k]? = some f →
      (((segmentFields ident h).take k).map List.length).sum = offset → f.length = width →
      offset + width ≤ 60 → slice file offset width = f := by
    intro f offset width k here starts long within
    change slice (encodeSegmentHeader ident h ++ rest) offset width = f
    rw [encodeSegmentHeader, withChecksum, append_assoc,
      slice_append _ (by rw [body]; exact within)]
    exact slice_flatten k here starts long
  have magics : slice file 0 4 = le 4 segmentMagic := field 0 rfl rfl rfl (by decide)
  have format : slice file 4 2 = le 2 currentVersion := field 1 rfl rfl rfl (by decide)
  have id : slice file 8 8 = le 8 h.id := field 3 rfl rfl rfl (by decide)
  have start : slice file 16 8 = le 8 h.startLSN := field 4 rfl rfl rfl (by decide)
  have database : slice file 24 16 = ident.database :=
    field 5 rfl rfl ident.length_database (by decide)
  have files : slice file 40 16 = ident.file :=
    field 6 rfl (by simp [segmentFields, ident.length_database]) ident.length_file (by decide)
  have checked : verifyChecksum (file.take segmentHeaderSize) 60 := by
    rw [take_left' all, ← body]
    exact verify_withChecksum _
  have named : getLE (le 8 h.id) = h.id := getLE_le_of_lt (fits.id.2.trans_eq (by decide))
  have started : getLE (le 8 h.startLSN) = h.startLSN :=
    getLE_le_of_lt (fits.startLSN.2.trans_eq (by decide))
  have long : ¬ file.length < segmentHeaderSize := by
    rw [length_append, all]
    omega
  have valid : ¬ (h.id = 0 ∨ h.startLSN = 0) :=
    not_or.mpr ⟨Nat.ne_of_gt fits.id.1, Nat.ne_of_gt fits.startLSN.1⟩
  rw [decodeSegmentHeader, magics, format, id, start, database, files, checked, named, started,
    if_neg long, if_neg (by decide), if_neg (by decide), if_neg (by simp), if_neg (by simp),
    if_neg valid]

end NextSQL.Wal
