import FawnKV.Lib.ByteFile
import Mathlib.Logic.Function.Basic

/-! A direct-mapped cache of the pages of a file. -/
namespace PageCache

open ByteFile

structure Entry where
  valid : Bool := false
  offset : Nat := 0
  data : Bytes := []

/-- The entries by their index. -/
abbrev Cache := Nat → Entry

section Operations

variable (pageSize cacheSize : Nat)

def index (offset : Nat) : Nat := offset / pageSize % cacheSize

def hit (c : Cache) (offset : Nat) : Bool :=
  (c (index pageSize cacheSize offset)).valid && (c (index pageSize cacheSize offset)).offset == offset

/-- The page goes to its entry, whatever is there. -/
def fill (c : Cache) (offset : Nat) (data : Bytes) : Cache :=
  Function.update c (index pageSize cacheSize offset) ⟨true, offset, data⟩

def invalidate (c : Cache) (offset : Nat) : Cache :=
  if hit pageSize cacheSize c offset then
    Function.update c (index pageSize cacheSize offset)
      { c (index pageSize cacheSize offset) with valid := false }
  else c

/-- The offsets of `n` pages in a row. -/
def pages (offset n : Nat) : List Nat := (List.range n).map fun i => offset + pageSize * i

/-- The pages in a row that begin before `limit`. -/
def pagesBelow (offset limit : Nat) : List Nat :=
  pages pageSize offset ((limit - offset + (pageSize - 1)) / pageSize)

/-- What the entries of some pages hold, one after the other. -/
def contents (c : Cache) (offsets : List Nat) : Bytes :=
  offsets.flatMap fun offset => (c (index pageSize cacheSize offset)).data

/-- Every valid entry is a whole page of the file, at the index that the page has. -/
def Coherent (c : Cache) (f : Bytes) : Prop :=
  ∀ i, (c i).valid = true → index pageSize cacheSize (c i).offset = i ∧ pageSize ∣ (c i).offset ∧
    (c i).offset + pageSize ≤ f.length ∧ (c i).data = pread f pageSize (c i).offset

end Operations

variable {pageSize cacheSize : Nat} {c : Cache} {f data : Bytes} {offset n : Nat} {l : List Nat}

theorem coherent_empty (h : ∀ i, (c i).valid = false) : Coherent pageSize cacheSize c f := by
  intro i hi
  rw [h i] at hi
  cases hi

theorem Coherent.hit (h : Coherent pageSize cacheSize c f) (hhit : hit pageSize cacheSize c offset = true) :
    offset + pageSize ≤ f.length ∧
      (c (index pageSize cacheSize offset)).data = pread f pageSize offset := by
  rw [PageCache.hit, Bool.and_eq_true, beq_iff_eq] at hhit
  obtain ⟨-, -, hle, hdata⟩ := h _ hhit.1
  rw [hhit.2] at hle hdata
  exact ⟨hle, hdata⟩

theorem pages_succ : pages pageSize offset (n + 1) = pages pageSize offset n ++ [offset + pageSize * n] := by
  rw [pages, List.range_succ, List.map_append]
  rfl

/-- When all pages of a region are in the cache, they are what a read of the region gives. -/
theorem Coherent.contents (h : Coherent pageSize cacheSize c f)
    (hhit : ∀ p ∈ pages pageSize offset n, PageCache.hit pageSize cacheSize c p = true) :
    contents pageSize cacheSize c (pages pageSize offset n) = pread f (pageSize * n) offset := by
  induction n with
  | zero => rw [Nat.mul_zero, pread, List.take_zero]; rfl
  | succ n ih =>
    rw [pages_succ] at hhit ⊢
    have hlast := (h.hit (hhit _ (List.mem_append_right _ (List.mem_singleton.mpr rfl)))).2
    rw [PageCache.contents, List.flatMap_append, ← PageCache.contents,
      ih fun p hp => hhit p (List.mem_append_left _ hp), List.flatMap_singleton, hlast, pread, pread, pread,
      Nat.mul_succ, List.take_add, List.drop_drop]

theorem Coherent.fill (h : Coherent pageSize cacheSize c f) (hdvd : pageSize ∣ offset)
    (hle : offset + pageSize ≤ f.length) (hdata : data = pread f pageSize offset) :
    Coherent pageSize cacheSize (fill pageSize cacheSize c offset data) f := by
  intro i hi
  by_cases hindex : i = index pageSize cacheSize offset
  · subst hindex
    simp only [PageCache.fill, Function.update_self]
    exact ⟨trivial, hdvd, hle, hdata⟩
  · simp only [PageCache.fill, Function.update_of_ne hindex] at hi ⊢
    exact h i hi

theorem Coherent.fillAll {page : Nat → Bytes} (h : Coherent pageSize cacheSize c f)
    (hl : ∀ p ∈ l, pageSize ∣ p ∧ p + pageSize ≤ f.length ∧ page p = pread f pageSize p) :
    Coherent pageSize cacheSize
      (l.foldl (fun c p => PageCache.fill pageSize cacheSize c p (page p)) c) f := by
  induction l generalizing c with
  | nil => exact h
  | cons p l ih =>
    obtain ⟨hdvd, hle, hdata⟩ := hl p List.mem_cons_self
    exact ih (h.fill hdvd hle hdata) fun q hq => hl q (List.mem_cons_of_mem p hq)

/-- What is valid after a page was invalidated was valid before, and is another page. -/
theorem valid_invalidate {i : Nat} (hi : (invalidate pageSize cacheSize c offset i).valid = true) :
    invalidate pageSize cacheSize c offset i = c i ∧
      (index pageSize cacheSize (c i).offset = i → (c i).offset ≠ offset) := by
  rw [invalidate] at hi ⊢
  by_cases hhit : hit pageSize cacheSize c offset = true
  · rw [if_pos hhit] at hi ⊢
    by_cases hindex : i = index pageSize cacheSize offset
    · subst hindex
      simp only [Function.update_self] at hi
      cases hi
    · rw [Function.update_of_ne hindex]
      refine ⟨rfl, fun hown heq => hindex ?_⟩
      rw [← heq, hown]
  · rw [if_neg hhit] at hi ⊢
    refine ⟨rfl, fun hown heq => hhit ?_⟩
    rw [hit, ← heq, hown, hi]
    exact beq_self_eq_true _

theorem valid_invalidateAll {i : Nat} (hi : (l.foldl (invalidate pageSize cacheSize) c i).valid = true) :
    l.foldl (invalidate pageSize cacheSize) c i = c i ∧
      (index pageSize cacheSize (c i).offset = i → (c i).offset ∉ l) := by
  induction l generalizing c with
  | nil => exact ⟨rfl, fun _ => List.not_mem_nil⟩
  | cons p l ih =>
    obtain ⟨heq, hrest⟩ := ih hi
    rw [List.foldl_cons] at hi ⊢
    rw [heq] at hi
    obtain ⟨hsame, hne⟩ := valid_invalidate hi
    rw [hsame] at heq hrest
    refine ⟨heq, fun hown => ?_⟩
    rw [List.mem_cons, not_or]
    exact ⟨hne hown, hrest hown⟩

theorem Coherent.invalidateAll (h : Coherent pageSize cacheSize c f) (l : List Nat) :
    Coherent pageSize cacheSize (l.foldl (invalidate pageSize cacheSize) c) f := by
  intro i hi
  have heq := (valid_invalidateAll hi).1
  rw [heq] at hi ⊢
  exact h i hi

theorem mem_pagesBelow (hpos : 0 < pageSize) {p limit : Nat} (hdvd : pageSize ∣ p) (hoff : pageSize ∣ offset)
    (hle : offset ≤ p) (hlt : p < limit) : p ∈ pagesBelow pageSize offset limit := by
  obtain ⟨a, rfl⟩ := hoff
  obtain ⟨b, rfl⟩ := hdvd
  have hab : a ≤ b := Nat.le_of_mul_le_mul_left hle hpos
  refine List.mem_map.mpr ⟨b - a, List.mem_range.mpr ?_, ?_⟩
  · rw [Nat.lt_iff_add_one_le, Nat.le_div_iff_mul_le hpos, Nat.add_mul, Nat.sub_mul, Nat.mul_comm b,
      Nat.mul_comm a]
    omega
  · rw [Nat.mul_sub, Nat.add_sub_cancel' (Nat.mul_le_mul_left pageSize hab)]

/-- After a write, the pages it touched are invalid, and the others are as they were. -/
theorem Coherent.write (hpos : 0 < pageSize) (h : Coherent pageSize cacheSize c f) (data : Bytes)
    (offset : Nat) :
    Coherent pageSize cacheSize
      ((pagesBelow pageSize (offset - offset % pageSize) (offset + data.length)).foldl
        (invalidate pageSize cacheSize) c) (pwrite f data offset) := by
  intro i hi
  obtain ⟨heq, hnot⟩ := valid_invalidateAll hi
  rw [heq] at hi ⊢
  obtain ⟨hown, hdvd, hle, hdata⟩ := h i hi
  have haligned : pageSize ∣ offset - offset % pageSize := Nat.dvd_sub_mod offset
  have hmod := Nat.mod_lt offset hpos
  -- a page that begins before the aligned offset ends there
  have hdisj : (c i).offset + pageSize ≤ offset ∨ offset + data.length ≤ (c i).offset := by
    rcases Nat.lt_or_ge (c i).offset (offset - offset % pageSize) with hbefore | hafter
    · refine .inl (Nat.le_trans ?_ (Nat.sub_le offset (offset % pageSize)))
      obtain ⟨a, ha⟩ := haligned
      obtain ⟨b, hb⟩ := hdvd
      rw [ha, hb] at hbefore ⊢
      have hba := Nat.lt_of_mul_lt_mul_left hbefore
      exact Nat.mul_succ pageSize b ▸ Nat.mul_le_mul_left pageSize hba
    · refine .inr (Nat.le_of_not_lt fun hlt => ?_)
      exact hnot hown (mem_pagesBelow hpos hdvd haligned hafter hlt)
  refine ⟨hown, hdvd, ?_, ?_⟩
  · rw [length_pwrite]
    exact Nat.le_trans hle (Nat.le_max_left _ _)
  · rw [hdata, pread_pwrite_of_disjoint hle hdisj]

end PageCache
