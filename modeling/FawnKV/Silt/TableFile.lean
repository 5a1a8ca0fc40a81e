import Mathlib.Data.PNat.Notation
import FawnKV.Lib.PartialIO

/-! Hash tables saved to a file and loaded again, call by call: `FawnDS`, `HashTableDefault` and both
layouts of `HashTableCuckoo`. -/
namespace FawnKV

open ByteFile PartialIO

/-- The block of a hash table, and what is saved before it: the `DbHeader` or `current_entries_`. -/
structure TableMemory where
  head : Bytes
  table : Bytes
deriving DecidableEq

/-- What the system calls return: whether `open`, the zeroing and `close` succeed, what the transfer of
the head returns, and the calls of the loop. -/
structure FileCalls where
  opened : Bool := true
  zeroed : Bool := true
  head : Int
  table : List Int
  closed : Bool := true
deriving DecidableEq

/-- A function that loads a table returns success or an error, or has written behind the block. -/
inductive Loaded where
  | ok (m : TableMemory)
  | error
  | overrun
deriving DecidableEq

/-- How a function ends whose loop reads into the block. -/
def Loaded.ofLoop (head : Bytes) (closed : Bool) : Option (Bool × Bytes) → Loaded
  | none => .overrun
  | some (ret, table) => if ret && closed then .ok ⟨head, table⟩ else .error

namespace Fawn

/-- The size of `struct DbHeader`. -/
def dbHeaderSize : Nat := 108

/-- The size of `struct HashEntry`. -/
def hashEntrySize : Nat := 6

/-- `header_size`: a multiple of the page size. -/
def headerSize (pagesize : ℕ+) : Nat := (dbHeaderSize / pagesize + 1) * pagesize

/-- The field `hashtable_size`. -/
def hashtableSize (header : Bytes) : Nat := readLe (pread header 8 8)

def writeHashtableToFile (pagesize : ℕ+) (calls : FileCalls) (m : TableMemory) (file : Bytes) :
    Bool × Bytes :=
  let file := pwrite file (m.head.take calls.head.toNat) 0
  if calls.head ≠ dbHeaderSize then (false, file)
  else writeLoop (fun _ => 0) m.table (headerSize pagesize) calls.table 0 file

/-- The place in the table is counted in entries, of which `h_offset` is added. -/
def readHashtableFromFile (pagesize : ℕ+) (uninit : Nat → UInt8) (calls : FileCalls) (file : Bytes) :
    Loaded :=
  if calls.head ≠ dbHeaderSize then .error
  else
    let header := pread file dbHeaderSize 0
    let table := (List.range (hashEntrySize * hashtableSize header)).map uninit
    .ofLoop header true (readLoop (hashEntrySize * ·) file (headerSize pagesize) calls.table 0 table)

end Fawn

namespace Silt

/-- What the two `WriteToFile` share; `countSize` is the size of `current_entries_`. -/
def writeTable (countSize : Nat) (calls : FileCalls) (m : TableMemory) (file : Bytes) : Bool × Bytes :=
  if !calls.opened then (false, file)
  else
    let file := List.replicate (countSize + m.table.length) 0
    if !calls.zeroed then (false, file)
    else
      let file := pwrite file (m.head.take calls.head.toNat) 0
      if calls.head ≠ countSize then (false, file)
      else
        let r := writeLoop (fun _ => 0) m.table countSize calls.table 0 file
        (r.1 && calls.closed, r.2)

/-- What the two `ReadFromFile` share, up to the loop; `table` is the block that `Create` made. -/
def readTable (countSize : Nat) (calls : FileCalls) (table : Option Bytes) (file : Bytes) : Loaded :=
  if !calls.opened then .error
  else if calls.head ≠ countSize then .error
  else
    match table with
    | none => .error
    | some table => .ofLoop (pread file countSize 0) calls.closed
        (readLoop (fun _ => 0) file countSize calls.table 0 table)

section Moved

variable {countSize : Nat} {calls : FileCalls} (hopened : calls.opened = true)
  (hhead : calls.head = countSize) (hclosed : calls.closed = true)
include hopened hhead hclosed

theorem writeTable_of_moved (hzeroed : calls.zeroed = true) {m : TableMemory} (file : Bytes) :
    writeTable countSize calls m file = writeLoop (fun _ => 0) m.table countSize calls.table 0
      (pwrite (List.replicate (countSize + m.table.length) 0) (m.head.take countSize) 0) := by
  have hnat : calls.head.toNat = countSize := by omega
  simp only [writeTable, hopened, hzeroed, hclosed, hnat, Bool.not_true, Bool.and_true, Bool.false_eq_true,
    if_false]
  exact if_neg (not_not.mpr hhead)

theorem readTable_of_moved (table file : Bytes) : readTable countSize calls (some table) file =
    .ofLoop (pread file countSize 0) true (readLoop (fun _ => 0) file countSize calls.table 0 table) := by
  simp only [readTable, hopened, hclosed, Bool.not_true, Bool.false_eq_true, if_false]
  exact if_neg (not_not.mpr hhead)

end Moved

section NotMoved

variable {countSize : Nat} {calls : FileCalls} (hhead : calls.head ≠ countSize)
include hhead

theorem writeTable_of_not_moved (m : TableMemory) (file : Bytes) :
    (writeTable countSize calls m file).1 = false := by
  simp only [writeTable, if_pos hhead]
  split
  · rfl
  · split <;> rfl

theorem readTable_of_not_moved (table : Option Bytes) (file : Bytes) :
    readTable countSize calls table file = .error := by
  cases table <;> simp [readTable, hhead]

end NotMoved

namespace HashTableDefault

/-- The size of `struct HashEntry`. -/
def hashEntrySize : Nat := 6

def writeToFile (calls : FileCalls) (m : TableMemory) (file : Bytes) : Bool × Bytes :=
  writeTable 8 calls m file

def readFromFile (size : Nat) (calls : FileCalls) (file : Bytes) : Loaded :=
  readTable 8 calls (some (List.replicate (hashEntrySize * size) 0)) file

end HashTableDefault

namespace HashTableCuckoo

/-- The size of `TagValStoreEntry`, or of `TagStoreEntry` in the layout without offsets. -/
def entrySize (useOffset : Bool) : Nat := if useOffset then 24 else 8

def writeToFile (calls : FileCalls) (m : TableMemory) (file : Bytes) : Bool × Bytes :=
  writeTable 4 calls m file

/-- The block is that of `hash_table_`, which the layout without offsets does not have. -/
def readFromFile (useOffset : Bool) (maxIndex : Nat) (calls : FileCalls) (file : Bytes) : Loaded :=
  readTable 4 calls
    (if useOffset then some (List.replicate (entrySize useOffset * maxIndex) 0) else none) file

end HashTableCuckoo

end Silt

/-- The classes that save a hash table. -/
inductive TableKind where
  | fawnds (pagesize : ℕ+)
  | default
  | cuckoo (useOffset : Bool)

namespace TableKind

def headSize : TableKind → Nat
  | fawnds _ => Fawn.dbHeaderSize
  | default => 8
  | cuckoo _ => 4

def entrySize : TableKind → Nat
  | fawnds _ => Fawn.hashEntrySize
  | default => Silt.HashTableDefault.hashEntrySize
  | cuckoo useOffset => Silt.HashTableCuckoo.entrySize useOffset

/-- The memory of a table of this size. -/
structure Fits (k : TableKind) (size : UInt64) (m : TableMemory) : Prop where
  head : m.head.length = k.headSize
  table : m.table.length = k.entrySize * size.toNat
  hashtableSize : ∀ pagesize, k = fawnds pagesize → Fawn.hashtableSize m.head = size.toNat

def write (k : TableKind) (calls : FileCalls) (m : TableMemory) (file : Bytes) : Bool × Bytes :=
  match k with
  | fawnds pagesize => Fawn.writeHashtableToFile pagesize calls m file
  | default => Silt.HashTableDefault.writeToFile calls m file
  | cuckoo _ => Silt.HashTableCuckoo.writeToFile calls m file

def read (k : TableKind) (size : UInt64) (uninit : Nat → UInt8) (calls : FileCalls) (file : Bytes) :
    Loaded :=
  match k with
  | fawnds pagesize => Fawn.readHashtableFromFile pagesize uninit calls file
  | default => Silt.HashTableDefault.readFromFile size.toNat calls file
  | cuckoo useOffset => Silt.HashTableCuckoo.readFromFile useOffset size.toNat calls file

/-- All calls succeed, and the head is moved by one of them. -/
structure HeadMoved (k : TableKind) (calls : FileCalls) : Prop where
  opened : calls.opened = true
  zeroed : calls.zeroed = true
  head : calls.head = k.headSize
  closed : calls.closed = true

/-- Whatever the table holds, it is saved, and loaded as it was. -/
def RoundTrips (k : TableKind) (size : UInt64) (uninit : Nat → UInt8) (w r : FileCalls) : Prop :=
  ∀ m file, k.Fits size m →
    (k.write w m file).1 = true ∧ k.read size uninit r (k.write w m file).2 = .ok m

def WriteReportsError (k : TableKind) (size : UInt64) (w : FileCalls) : Prop :=
  ∀ m file, k.Fits size m → (k.write w m file).1 = false

def ReadReportsError (k : TableKind) (size : UInt64) (uninit : Nat → UInt8) (r : FileCalls) : Prop :=
  ∀ file, k.read size uninit r file = .error

/-- Where the table stands in the file. -/
def tableOffset : TableKind → Nat
  | fawnds pagesize => Fawn.headerSize pagesize
  | k => k.headSize

/-- Where the loop that loads the table puts a piece. -/
def place : TableKind → Nat → Nat
  | fawnds _ => (Fawn.hashEntrySize * ·)
  | _ => fun _ => 0

variable {k : TableKind} {size : UInt64} {uninit : Nat → UInt8} {w r : FileCalls} {m : TableMemory}
  {file : Bytes}

theorem headSize_le_tableOffset : k.headSize ≤ k.tableOffset := by
  cases k with
  | fawnds pagesize =>
    rw [headSize, tableOffset, Fawn.headerSize, Nat.succ_mul]
    exact (Nat.lt_div_mul_add pagesize.2).le
  | default => exact Nat.le_refl _
  | cuckoo useOffset => exact Nat.le_refl _

theorem place_zero : k.place 0 = 0 := by cases k <;> rfl

/-- There is a table of every content. -/
theorem exists_fits (k : TableKind) {table : Bytes} (htable : table.length = k.entrySize * size.toNat) :
    ∃ m, k.Fits size m ∧ m.table = table := by
  cases k with
  | fawnds pagesize =>
    refine ⟨⟨List.replicate 8 0 ++ leBytes 8 size.toNat ++ List.replicate 92 0, table⟩, ⟨?_, htable, ?_⟩, rfl⟩
    · simp [headSize, Fawn.dbHeaderSize]
    · intro p hp
      have hread : pread (List.replicate 8 0 ++ leBytes 8 size.toNat ++ List.replicate 92 0) 8 8 =
          leBytes 8 size.toNat := by
        rw [pread, List.append_assoc, List.drop_left' (by simp), List.take_left' (by simp)]
      rw [Fawn.hashtableSize, hread, readLe_leBytes size.toNat_lt]
  | default => exact ⟨⟨List.replicate 8 0, table⟩, ⟨by simp [headSize], htable, by simp⟩, rfl⟩
  | cuckoo useOffset => exact ⟨⟨List.replicate 4 0, table⟩, ⟨by simp [headSize], htable, by simp⟩, rfl⟩

/-- Up to the loop the head has been written, behind which the file is one of at least this length. -/
theorem write_eq (hw : k.HeadMoved w) (hm : k.Fits size m) (file : Bytes) :
    ∃ f, pread f k.headSize 0 = m.head ∧
      (file.length = k.tableOffset + m.table.length → k.tableOffset + m.table.length ≤ f.length) ∧
      k.write w m file = writeLoop (fun _ => 0) m.table k.tableOffset w.table 0 f := by
  have htake : m.head.take k.headSize = m.head := List.take_of_length_le hm.head.le
  have hhead : ∀ f, pread (pwrite f m.head 0) k.headSize 0 = m.head := by
    intro f
    rw [← hm.head]
    exact pread_pwrite_self
  have hlen : ∀ f : Bytes, f.length ≤ (pwrite f m.head 0).length := by
    intro f
    rw [length_pwrite]
    exact Nat.le_max_left _ _
  have hzeros : k.headSize + m.table.length ≤
      (pwrite (List.replicate (k.headSize + m.table.length) 0) m.head 0).length := by
    refine Nat.le_trans ?_ (hlen _)
    rw [List.length_replicate]
  cases k with
  | fawnds pagesize =>
    refine ⟨_, hhead file, fun h => h ▸ hlen file, ?_⟩
    have hmoved : w.head = (Fawn.dbHeaderSize : Int) := hw.head
    rw [write, Fawn.writeHashtableToFile, if_neg (not_not.mpr hmoved), hmoved, Int.toNat_natCast]
    change writeLoop _ _ _ _ _ (pwrite file (m.head.take (fawnds pagesize).headSize) 0) = _
    rw [htake]
    rfl
  | default =>
    refine ⟨_, hhead _, fun _ => hzeros, ?_⟩
    refine (Silt.writeTable_of_moved hw.opened hw.head hw.closed hw.zeroed file).trans ?_
    rw [htake]
    rfl
  | cuckoo useOffset =>
    refine ⟨_, hhead _, fun _ => hzeros, ?_⟩
    refine (Silt.writeTable_of_moved hw.opened hw.head hw.closed hw.zeroed file).trans ?_
    rw [htake]
    rfl

/-- With the head read, the table is read by the loop, into a block of its size. -/
theorem read_eq (uninit : Nat → UInt8) (hk : k ≠ .cuckoo false) (hr : k.HeadMoved r)
    (hsize : ∀ p, k = .fawnds p → Fawn.hashtableSize (pread file k.headSize 0) = size.toNat) :
    ∃ block, block.length = k.entrySize * size.toNat ∧
      (k.place = (fun _ => 0) → block = List.replicate (k.entrySize * size.toNat) 0) ∧
      k.read size uninit r file = .ofLoop (pread file k.headSize 0) true
        (readLoop k.place file k.tableOffset r.table 0 block) := by
  cases k with
  | fawnds pagesize =>
    refine ⟨(List.range (Fawn.hashEntrySize * size.toNat)).map uninit, by simp [entrySize], ?_, ?_⟩
    · intro hplace
      exact absurd (congrFun hplace 1) (show ¬(6 * 1 = 0) by decide)
    · have hmoved : r.head = (Fawn.dbHeaderSize : Int) := hr.head
      rw [read, Fawn.readHashtableFromFile, if_neg (not_not.mpr hmoved), ← hsize pagesize rfl]
      rfl
  | default =>
    refine ⟨_, List.length_replicate, fun _ => rfl, ?_⟩
    exact Silt.readTable_of_moved hr.opened hr.head hr.closed _ _
  | cuckoo useOffset =>
    obtain rfl : useOffset = true := by simpa using hk
    refine ⟨_, List.length_replicate, fun _ => rfl, ?_⟩
    exact Silt.readTable_of_moved hr.opened hr.head hr.closed _ _

theorem ofLoop_ne_error {head : Bytes} {place : Nat → Nat} {offset moved : Nat} {results : List Int}
    {block : Bytes} : Loaded.ofLoop head true (readLoop place file offset results moved block) ≠ .error := by
  cases hloop : readLoop place file offset results moved block with
  | none => simp [Loaded.ofLoop]
  | some p =>
    obtain ⟨ret, block'⟩ := p
    cases ret with
    | true => simp [Loaded.ofLoop]
    | false => exact absurd hloop readLoop_ne_false

/-- The head of the table stands in the file whatever the loop does. -/
theorem head_of_write {f : Bytes} (results : List Int) (table : Bytes)
    (hhead : pread f k.headSize 0 = m.head) (hlen : m.head.length = k.headSize) :
    pread (writeLoop (fun _ => 0) table k.tableOffset results 0 f).2 k.headSize 0 = m.head := by
  have hf : k.headSize ≤ f.length := by
    rw [← hhead, pread, List.length_take, List.length_drop] at hlen
    omega
  rw [← hhead]
  refine List.ext_getElem? fun i => ?_
  rw [getElem?_pread, getElem?_pread]
  by_cases hi : i < k.headSize
  · have hle : k.headSize ≤ k.tableOffset := headSize_le_tableOffset
    rw [if_pos hi, if_pos hi, writeLoop_before (by omega) (by omega)]
  · rw [if_neg hi, if_neg hi]

theorem read_error_of_cuckoo : (cuckoo false).ReadReportsError size uninit r := by
  intro file
  change (if !r.opened then Loaded.error else if r.head ≠ (4 : Nat) then .error else .error) = .error
  rw [ite_self, ite_self]

section RoundTrip

variable (hw : k.HeadMoved w) (hr : k.HeadMoved r)
  (hsplitW : Splits w.table (k.entrySize * size.toNat)) (hsplitR : Splits r.table (k.entrySize * size.toNat))
include hw hr hsplitW hsplitR

/-- One call each way moves the table as it is. -/
theorem roundTrips_of_single (hk : k ≠ .cuckoo false) (honeW : w.table.length ≤ 1)
    (honeR : r.table.length ≤ 1) : k.RoundTrips size uninit w r := by
  intro m file hm
  obtain ⟨f, hhead, -, hwrite⟩ := write_eq hw hm file
  have hheadF := head_of_write w.table m.table hhead hm.head
  rw [hwrite]
  obtain ⟨block, hlen, -, hread⟩ := read_eq uninit hk hr (by rw [hheadF]; exact hm.hashtableSize)
  rw [hread, hheadF, writeLoop_single rfl (hm.table ▸ hsplitW) honeW]
  refine ⟨rfl, ?_⟩
  have hsame : block.length = m.table.length := hlen.trans hm.table.symm
  rw [← hlen] at hsplitR
  by_cases htable : m.table = []
  · have hblock : block = [] := List.eq_nil_of_length_eq_zero (by rw [hsame, htable, List.length_nil])
    rw [if_pos htable, readLoop_single place_zero hsplitR honeR fun hne => absurd hblock hne, hblock]
    change Loaded.ok ⟨m.head, pread f 0 k.tableOffset⟩ = .ok m
    rw [pread, List.take_zero, ← htable]
  · rw [if_neg htable, readLoop_single place_zero hsplitR honeR fun _ => ?_]
    · rw [hsame, pread_pwrite_self]
      rfl
    · rw [length_pwrite, hsame]
      exact Nat.le_max_right _ _

omit hsplitW hsplitR in
/-- What a round trip of a table loads: the loop's reads of the file that the loop's writes left. -/
theorem exists_loads (hk : k ≠ .cuckoo false) (h : k.RoundTrips size uninit w r) (hm : k.Fits size m) :
    ∃ f block, block.length = k.entrySize * size.toNat ∧ block.length = m.table.length ∧
      (k.place = (fun _ => 0) → block = List.replicate (k.entrySize * size.toNat) 0) ∧
      k.tableOffset + m.table.length ≤ (writeLoop (fun _ => 0) m.table k.tableOffset w.table 0 f).2.length ∧
      ∃ head, .ofLoop head true (readLoop k.place (writeLoop (fun _ => 0) m.table k.tableOffset w.table 0 f).2
        k.tableOffset r.table 0 block) = Loaded.ok m := by
  obtain ⟨-, hok⟩ := h m (List.replicate (k.tableOffset + m.table.length) 0) hm
  obtain ⟨f, hhead, hfile, hwrite⟩ := write_eq hw hm (List.replicate (k.tableOffset + m.table.length) 0)
  have hheadF := head_of_write w.table m.table hhead hm.head
  rw [hwrite] at hok
  obtain ⟨block, hlen, hzeros, hread⟩ := read_eq uninit hk hr (by rw [hheadF]; exact hm.hashtableSize)
  rw [hread] at hok
  exact ⟨f, block, hlen, hlen.trans hm.table.symm, hzeros,
    (hfile List.length_replicate).trans length_le_writeLoop, _, hok⟩

/-- A table of which a second call reads a part is not what was saved, or has been written behind its
end. -/
theorem read_ne_ok (hk : k ≠ .cuckoo false) (htwo : 1 < r.table.length) : ¬k.RoundTrips size uninit w r := by
  intro h
  obtain ⟨m, hm, htable⟩ := exists_fits k (List.length_replicate (a := (1 : UInt8)))
  obtain ⟨f, block, hlen, hsame, hzeros, hlong, head, hok⟩ := exists_loads hw hr hk h hm
  have hpos : 0 < block.length := hlen ▸ hsplitR.pos (by rintro hnil; simp [hnil] at htwo)
  rw [← hlen] at hsplitR
  by_cases hplace : k.place = fun _ => 0
  · -- the last byte of the block is still the one that `Create` left there
    rw [hplace] at hok
    have hblock := hzeros hplace
    cases hloop : readLoop (fun _ => 0) (writeLoop (fun _ => 0) m.table k.tableOffset w.table 0 f).2
        k.tableOffset r.table 0 block with
    | none =>
      rw [hloop] at hok
      cases hok
    | some p =>
      obtain ⟨ret, block'⟩ := p
      have hlast := readLoop_two_behind hsplitR htwo hloop
      rw [hloop] at hok
      have hm' : block' = m.table := by
        cases ret with
        | true => exact congrArg TableMemory.table (Loaded.ok.inj hok)
        | false => cases hok
      rw [hm', htable, hblock, List.getElem?_replicate, List.getElem?_replicate, if_pos, if_pos] at hlast
      · cases hlast
      all_goals
        rw [List.length_replicate]
        omega
  · match k, hplace with
    | fawnds pagesize, _ =>
      have hahead : ∀ m, 0 < m → m < (fawnds pagesize).place m := by
        intro m hm
        change m < 6 * m
        omega
      rw [readLoop_two_overrun place_zero hahead hsplitR htwo (hsame ▸ hlong)] at hok
      cases hok
    | default, hplace => exact absurd rfl hplace
    | cuckoo _, hplace => exact absurd rfl hplace

/-- A table of which a second call has written a part is not what is loaded. -/
theorem write_ne_ok (hk : k ≠ .cuckoo false) (htwo : 1 < w.table.length) (hone : r.table.length ≤ 1) :
    ¬k.RoundTrips size uninit w r := by
  intro h
  match hcalls : w.table, htwo with
  | n :: n' :: rest, _ =>
    rw [hcalls] at hsplitW
    obtain ⟨hn, hle, hrest⟩ := hsplitW.cons
    obtain ⟨hn', hle', -⟩ := hrest.cons
    have hlen : (List.replicate n.toNat (0 : UInt8) ++
        List.replicate (k.entrySize * size.toNat - n.toNat) 1).length = k.entrySize * size.toNat := by
      rw [List.length_append, List.length_replicate, List.length_replicate]
      omega
    obtain ⟨m, hm, htable⟩ := exists_fits k hlen
    have hfirst : m.table[0]? = some 0 := by
      rw [htable, List.getElem?_append_left (by rw [List.length_replicate]; omega),
        List.getElem?_replicate, if_pos (by omega)]
    have hsecond : m.table[n.toNat]? = some 1 := by
      rw [htable, List.getElem?_append_right (by rw [List.length_replicate]), List.length_replicate,
        Nat.sub_self, List.getElem?_replicate, if_pos (by omega)]
    have hne : m.table ≠ [] := by
      intro hnil
      rw [hnil] at hfirst
      cases hfirst
    obtain ⟨f, block, hlen, hsame, -, hlong, head, hok⟩ := exists_loads hw hr hk h hm
    rw [← hlen] at hsplitR
    rw [readLoop_single place_zero hsplitR hone fun _ => hsame ▸ hlong] at hok
    have hm' := congrArg TableMemory.table (Loaded.ok.inj hok)
    have hagain : (writeLoop (fun _ => 0) m.table k.tableOffset w.table 0 f).2[k.tableOffset + n.toNat]? =
        m.table[0]? := by
      rw [hcalls]
      exact writeLoop_again hn hn' hne
    have hloaded := congrArg (fun b : Bytes => b[n.toNat]?) hm'
    simp only [getElem?_pread, hlen, if_pos (show n.toNat < k.entrySize * size.toNat by omega), hagain,
      hfirst, hsecond] at hloaded
    cases hloaded

end RoundTrip

/-- A table is loaded as it was saved when the loops move it by one call each way, and by more calls
never; the layout without offsets is never loaded. That a call of a loop fails is not reported; that
the transfer of the head fails is. -/
theorem saves_and_loads_iff (k : TableKind) (size : UInt64) (uninit : Nat → UInt8) (w r : FileCalls) :
    (k.HeadMoved w → k.HeadMoved r → Splits w.table (k.entrySize * size.toNat) →
      Splits r.table (k.entrySize * size.toNat) →
      (k.RoundTrips size uninit w r ↔
        k ≠ .cuckoo false ∧ w.table.length ≤ 1 ∧ r.table.length ≤ 1)) ∧
    (k.HeadMoved w → FailsPartWay w.table (k.entrySize * size.toNat) → ¬k.WriteReportsError size w) ∧
    (k.HeadMoved r → FailsPartWay r.table (k.entrySize * size.toNat) →
      (k.ReadReportsError size uninit r ↔ k = .cuckoo false)) ∧
    (w.head = -1 → k.WriteReportsError size w) ∧ (r.head = -1 → k.ReadReportsError size uninit r) := by
  obtain ⟨m, hm, -⟩ := exists_fits k (List.length_replicate (a := (0 : UInt8)))
  refine ⟨fun hw hr hsplitW hsplitR => ⟨fun h => ?_, fun ⟨hk, hw1, hr1⟩ => ?_⟩, fun hw _ h => ?_,
    fun hr _ => ⟨fun h => ?_, fun hk => ?_⟩, fun hw => ?_, fun hr => ?_⟩
  · have hk : k ≠ .cuckoo false := by
      rintro rfl
      exact absurd ((read_error_of_cuckoo _).symm.trans (h m [] hm).2) (by simp)
    have hr1 : r.table.length ≤ 1 := by
      by_contra htwo
      exact read_ne_ok hw hr hsplitW hsplitR hk (by omega) h
    refine ⟨hk, ?_, hr1⟩
    by_contra htwo
    exact write_ne_ok hw hr hsplitW hsplitR hk (by omega) hr1 h
  · exact roundTrips_of_single hw hr hsplitW hsplitR hk hw1 hr1
  · obtain ⟨f, -, -, hwrite⟩ := write_eq hw hm []
    have hreport := h m [] hm
    rw [hwrite, writeLoop_fst] at hreport
    cases hreport
  · by_contra hk
    have hhead : pread m.head k.headSize 0 = m.head := by
      rw [pread, List.drop_zero, List.take_of_length_le hm.head.le]
    obtain ⟨block, -, -, hread⟩ := read_eq uninit hk hr (by rw [hhead]; exact hm.hashtableSize)
    exact ofLoop_ne_error (hread.symm.trans (h m.head))
  · subst hk
    exact read_error_of_cuckoo
  · intro m file _
    cases k with
    | fawnds pagesize =>
      rw [write, Fawn.writeHashtableToFile, if_pos (by rw [hw]; decide)]
    | default => exact Silt.writeTable_of_not_moved (show w.head ≠ (8 : Nat) by rw [hw]; decide) m file
    | cuckoo useOffset => exact Silt.writeTable_of_not_moved (show w.head ≠ (4 : Nat) by rw [hw]; decide) m file
  · intro file
    cases k with
    | fawnds pagesize => rw [read, Fawn.readHashtableFromFile, if_pos (by rw [hr]; decide)]
    | default =>
      rw [read, Silt.HashTableDefault.readFromFile,
        Silt.readTable_of_not_moved (show r.head ≠ (8 : Nat) by rw [hr]; decide)]
    | cuckoo useOffset =>
      rw [read, Silt.HashTableCuckoo.readFromFile,
        Silt.readTable_of_not_moved (show r.head ≠ (4 : Nat) by rw [hr]; decide)]

/-- A table of one entry, moved by one call each way. -/
theorem saves_and_loads_one_call : default.RoundTrips 1 (fun _ => 0)
    { head := 8, table := [6] } { head := 8, table := [6] } := by
  have hmoved : default.HeadMoved { head := 8, table := [6] } := ⟨rfl, rfl, rfl, rfl⟩
  have hsplit : Splits [6] (default.entrySize * (1 : UInt64).toNat) := ⟨by decide, by decide⟩
  have h := saves_and_loads_iff default 1 (fun _ => 0) { head := 8, table := [6] } { head := 8, table := [6] }
  exact (h.1 hmoved hmoved hsplit hsplit).mpr ⟨by simp, by decide, by decide⟩

/-- Of a table of one entry the second half is written by a second call, from the start of the table
again; and when the second call fails, `WriteToFile` returns 0. -/
theorem second_call_starts_again : Splits [3, 3] (default.entrySize * (1 : UInt64).toNat) ∧
    Splits [6] (default.entrySize * (1 : UInt64).toNat) ∧
    ¬default.RoundTrips 1 (fun _ => 0) { head := 8, table := [3, 3] } { head := 8, table := [6] } ∧
    FailsPartWay [3, -1] (default.entrySize * (1 : UInt64).toNat) ∧
    ¬default.WriteReportsError 1 { head := 8, table := [3, -1] } := by
  have hm : default.Fits 1 ⟨[1, 0, 0, 0, 0, 0, 0, 0], [1, 2, 3, 4, 5, 6]⟩ := ⟨rfl, rfl, by simp⟩
  refine ⟨⟨by decide, by decide⟩, ⟨by decide, by decide⟩, fun h => ?_,
    ⟨[3], [], rfl, by decide, by decide⟩, fun h => ?_⟩
  · exact absurd (h _ [] hm).2 (by decide)
  · exact absurd (h _ [] hm) (by decide)

end TableKind

end FawnKV
