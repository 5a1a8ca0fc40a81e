import FawnKV.Lib.ByteFile

/-! The append-only log behind a FAWN-DS store (`fawnds_flash.cc`), with I/O that succeeds. -/
namespace FawnKV.Fawn

open ByteFile

/-- `struct DataHeader`, packed in front of every log record. -/
structure DataHeader where
  dataLength : Nat
  keyLength : Nat
  deleteLog : Bool
  deriving DecidableEq, Repr

/-- `sizeof(struct DataHeader)`. -/
def dataHeaderSize : Nat := 9

namespace DataHeader

/-- Both lengths are stored as `uint32_t`. -/
def toBytes (h : DataHeader) : Bytes :=
  leBytes 4 h.dataLength ++ leBytes 4 h.keyLength ++ [if h.deleteLog then 1 else 0]

def ofBytes (b : Bytes) : DataHeader where
  dataLength := readLe (b.take 4)
  keyLength := readLe ((b.drop 4).take 4)
  deleteLog := b.getD 8 0 != 0

@[simp] theorem length_toBytes (h : DataHeader) : h.toBytes.length = dataHeaderSize := by
  simp [toBytes, dataHeaderSize]

theorem ofBytes_toBytes {h : DataHeader} (hd : h.dataLength < 2 ^ 32) (hk : h.keyLength < 2 ^ 32) :
    ofBytes h.toBytes = h := by
  obtain ⟨d, k, del⟩ := h
  have h1 : (toBytes ⟨d, k, del⟩).take 4 = leBytes 4 d := by simp [toBytes]
  have h2 : ((toBytes ⟨d, k, del⟩).drop 4).take 4 = leBytes 4 k := by simp [toBytes]
  have h3 : (toBytes ⟨d, k, del⟩).getD 8 0 = if del then 1 else 0 := by simp [toBytes]
  have hd' : readLe (leBytes 4 d) = d := readLe_leBytes (by simpa using hd)
  have hk' : readLe (leBytes 4 k) = k := readLe_leBytes (by simpa using hk)
  simp only [ofBytes, h1, h2, h3, hd', hk']
  cases del <;> rfl

end DataHeader

namespace FawnDSFlash

/-- `FawnDS_Flash::Write`: header, key and data in one `writev` at `offset`. -/
def write (f : Bytes) (key data : Bytes) (offset : Nat) : Bytes :=
  pwrite f ((DataHeader.mk data.length key.length false).toBytes ++ key ++ data) offset

/-- `FawnDS_Flash::Delete`: a header with `deleteLog` set, then the key. -/
def delete (f : Bytes) (key : Bytes) (offset : Nat) : Bytes :=
  pwrite (pwrite f (DataHeader.mk 0 key.length true).toBytes offset) key (offset + dataHeaderSize)

/-- `FawnDS_Flash::ReadIntoHeader`: fails when the header or the key is cut short. -/
def readIntoHeader (f : Bytes) (offset : Nat) : Option (DataHeader × Bytes) :=
  let b := pread f dataHeaderSize offset
  if b.length < dataHeaderSize then none
  else
    let dataHeader := DataHeader.ofBytes b
    let key := pread f dataHeader.keyLength (offset + dataHeaderSize)
    if key.length < dataHeader.keyLength then none else some (dataHeader, key)

/-- `FawnDS_Flash::Read` with its in-out string `data`. The stored key is compared on the
first `key_len` bytes only, and a record without data leaves `data` as it was. -/
def read (f : Bytes) (key : Bytes) (offset : Nat) (data : Bytes) : Bool × Bytes :=
  match readIntoHeader f offset with
  | none => (false, data)
  | some (dataHeader, inputkey) =>
    if inputkey.take key.length ≠ key then (false, data)
    else if dataHeader.dataLength = 0 then (true, data)
    else
      let mdata := pread f dataHeader.dataLength (offset + key.length + dataHeaderSize)
      if mdata.length ≠ dataHeader.dataLength then (false, data) else (true, mdata)

end FawnDSFlash

/-- A record of the log; a delete record has no value. -/
structure LogRecord where
  key : Bytes
  value : Bytes
  deleteLog : Bool
  deriving DecidableEq, Repr

namespace LogRecord

def header (r : LogRecord) : DataHeader := ⟨r.value.length, r.key.length, r.deleteLog⟩

def toBytes (r : LogRecord) : Bytes := r.header.toBytes ++ r.key ++ r.value

/-- What the scans of a log add to their offset. -/
def size (r : LogRecord) : Nat := dataHeaderSize + r.value.length + r.key.length

@[simp] theorem length_toBytes (r : LogRecord) : r.toBytes.length = r.size := by
  simp only [toBytes, size, List.length_append, DataHeader.length_toBytes]
  omega

end LogRecord

/-- The log holds the record at position `offset`. -/
def HasRecord (f : Bytes) (offset : Nat) (r : LogRecord) : Prop :=
  r.key.length < 2 ^ 32 ∧ r.value.length < 2 ^ 32 ∧ ∃ pre post, pre.length = offset ∧
    f = pre ++ r.toBytes ++ post

namespace HasRecord

open FawnDSFlash

variable {f : Bytes} {offset : Nat} {r : LogRecord}

theorem append (h : HasRecord f offset r) (g : Bytes) : HasRecord (f ++ g) offset r := by
  obtain ⟨hk, hv, pre, post, hp, rfl⟩ := h
  exact ⟨hk, hv, pre, post ++ g, hp, by simp⟩

theorem pread_header (h : HasRecord f offset r) : pread f dataHeaderSize offset = r.header.toBytes := by
  obtain ⟨_, _, pre, post, rfl, rfl⟩ := h
  rw [List.append_assoc, pread_append_length]
  simp [LogRecord.toBytes]

theorem pread_key (h : HasRecord f offset r) :
    pread f r.key.length (offset + dataHeaderSize) = r.key := by
  obtain ⟨_, _, pre, post, rfl, rfl⟩ := h
  have hlen : pre.length + dataHeaderSize = (pre ++ r.header.toBytes).length := by simp
  have hsplit : pre ++ r.toBytes ++ post =
      (pre ++ r.header.toBytes) ++ (r.key ++ (r.value ++ post)) := by simp [LogRecord.toBytes]
  rw [hsplit, hlen, pread_append_length]
  simp

theorem pread_data (h : HasRecord f offset r) :
    pread f r.value.length (offset + r.key.length + dataHeaderSize) = r.value := by
  obtain ⟨_, _, pre, post, rfl, rfl⟩ := h
  have hlen : pre.length + r.key.length + dataHeaderSize =
      (pre ++ r.header.toBytes ++ r.key).length := by
    simp only [List.length_append, DataHeader.length_toBytes]
    omega
  have hsplit : pre ++ r.toBytes ++ post =
      (pre ++ r.header.toBytes ++ r.key) ++ (r.value ++ post) := by simp [LogRecord.toBytes]
  rw [hsplit, hlen, pread_append_length]
  simp

theorem readIntoHeader (h : HasRecord f offset r) : readIntoHeader f offset = some (r.header, r.key) := by
  have hb := DataHeader.ofBytes_toBytes (h := r.header) h.2.1 h.1
  have hkey : pread f r.header.keyLength (offset + dataHeaderSize) = r.key := h.pread_key
  have hlen : ¬r.key.length < r.header.keyLength := Nat.lt_irrefl _
  simp only [FawnDSFlash.readIntoHeader, h.pread_header, hb, hkey, DataHeader.length_toBytes,
    Nat.lt_irrefl, if_false, hlen]

/-- A record without a value leaves the output string as it was. -/
theorem read_own (h : HasRecord f offset r) (data : Bytes) :
    FawnDSFlash.read f r.key offset data = (true, if r.value = [] then data else r.value) := by
  by_cases hv : r.value = []
  · simp [FawnDSFlash.read, h.readIntoHeader, LogRecord.header, hv]
  · have hlen : r.value.length ≠ 0 := fun h0 => hv (List.length_eq_zero_iff.mp h0)
    simp [FawnDSFlash.read, h.readIntoHeader, LogRecord.header, hv, h.pread_data]

theorem readIntoHeader_insert {k v : Bytes} (h : HasRecord f offset ⟨k, v, false⟩) :
    FawnDSFlash.readIntoHeader f offset = some (⟨v.length, k.length, false⟩, k) :=
  h.readIntoHeader

/-- The record written at the end of the log is there afterwards. -/
theorem write_length {k v : Bytes} (f : Bytes) (hk : k.length < 2 ^ 32) (hv : v.length < 2 ^ 32) :
    HasRecord (write f k v f.length) f.length ⟨k, v, false⟩ :=
  ⟨hk, hv, f, [], rfl, by simp [write, pwrite_length, LogRecord.toBytes, LogRecord.header]⟩

/-- Reading an insert record back with a key of the stored key's length. -/
theorem read {k v : Bytes} (h : HasRecord f offset ⟨k, v, false⟩) (key : Bytes)
    (hlen : key.length = k.length) :
    FawnDSFlash.read f key offset [] = if k = key then (true, v) else (false, []) := by
  by_cases hk : k = key
  · subst key
    rw [if_pos rfl, h.read_own]
    by_cases hv : v = [] <;> simp [hv]
  · have htake : k.take key.length = k := by simp [hlen]
    simp [FawnDSFlash.read, h.readIntoHeader_insert, htake, hk]

end HasRecord

end FawnKV.Fawn
