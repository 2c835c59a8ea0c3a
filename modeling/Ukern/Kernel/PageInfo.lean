import Ukern.Kernel.State

/-! # `mem.c`: the page allocator on its own data

`ref` and `next` of `struct page_info` share one word, which `free_page` reads as a signed
count also when it holds a link. The free list is threaded through the array `k_pageinfo`.
-/
namespace Ukern

/-- `struct page_info`; `word` is the union. -/
structure PageInfo where
  paddr : ℕ
  word : U64

/-- Where `k_pageinfo` stands. It follows the kernel image, so its addresses are in the upper half. -/
structure PageArray where
  base : ℕ
  maxAddr : ℕ
  /-- `K2P(end_kmem)` -/
  endKmem : ℕ
  upper : 2^63 ≤ base
  fits : base + 16 * (maxAddr / pgsize) ≤ 2^64

/-- The array and the two variables beside it. -/
structure Pages where
  info : ℕ → PageInfo
  freepages : U64
  nfreepages : U64

def Pages.setWord (s : Pages) (i : ℕ) (w : U64) : Pages :=
  { s with info := Function.update s.info i { s.info i with word := w } }

/-- `page->ref` -/
def Pages.ref (s : Pages) (i : ℕ) : ℤ := (s.info i).word.toInt

/-- What `init_kpageinfo` leaves: a page has its address if the memory map offers it. -/
def Pages.boot (usable : ℕ → Bool) : Pages where
  info i := ⟨if usable i then i * pgsize else 0,0⟩
  freepages := 0
  nfreepages := 0

namespace PageArray
variable (A : PageArray)

def npages : ℕ := A.maxAddr / pgsize

/-- `k_pageinfo + i` -/
def ptr (i : ℕ) : U64 := BitVec.ofNat 64 (A.base + 16 * i)

/-- The entry that a pointer refers to. -/
def index (p : U64) : ℕ := (p.toNat - A.base) / 16

/-- A pointer as an entry, `none` for `NULL`. -/
def entryOf (p : U64) : Option ℕ := if p = 0 then none else some (A.index p)

/-- Link page `i` behind `last_page`, or make it the first. -/
def linkAfter (s : Pages) (last : Option ℕ) (i : ℕ) : Pages :=
  match last with
  | some j => s.setWord j (A.ptr i)
  | none => { s with freepages := A.ptr i }

/-- One turn of the loop of `init_freepages`, with `last_page`. The first branch writes `ref`
and then `next`, which is the same word. -/
def freeStep (st : Pages × Option ℕ) (i : ℕ) : Pages × Option ℕ :=
  if (st.1.info i).paddr < A.endKmem then ((st.1.setWord i 1).setWord i 0,st.2)
  else
    let s := A.linkAfter st.1 st.2 i
    ({ s with nfreepages := s.nfreepages + 1 },some i)

/-- `init_freepages`. With no free page at all it stores through the null pointer; `low` says
what address 0 reads as, and is `none` where it is not mapped. -/
def initFreepages (low : Option ℕ) (s : Pages) : Except Fault Pages :=
  match (List.range A.npages).foldl A.freeStep (s,none) with
  | (s,some j) => .ok (s.setWord j 0)
  | (s,none) => if low.isSome then .ok s else .error .nullDeref

/-- `alloc_page`, apart from the contents of the page. It reads `paddr` of the new head, also
when that is `NULL`. -/
def allocPage (low : Option ℕ) (s : Pages) : Except Fault (Option ℕ × Pages) :=
  if s.freepages = 0 then .ok (none,s)
  else
    let ret := A.index s.freepages
    let head := (s.info ret).word
    match if head = 0 then low else some (s.info (A.index head)).paddr with
    | none => .error .nullDeref
    | some paddr =>
      if A.maxAddr < paddr then .error .panic
      else .ok (some ret,{ s.setWord ret 1 with freepages := head, nfreepages := s.nfreepages - 1 })

/-- `free_page`; the upper bound is `K2P(max_addr)`. -/
def freePage (s : Pages) (i : ℕ) : Except Fault Pages :=
  if (s.info i).paddr < A.endKmem then .error .panic
  else if A.maxAddr % 2^47 ≤ (s.info i).paddr then .error .panic
  else if s.ref i ≤ 0 then .error .panic
  else if (s.info i).word - 1 = 0 then
    .ok { s.setWord i s.freepages with freepages := A.ptr i, nfreepages := s.nfreepages + 1 }
  else .ok (s.setWord i ((s.info i).word - 1))

end PageArray

/-- The calls on the allocator, and the `ref++` of `copy_pgtbl`. -/
inductive PageOp
  | alloc | free (i : ℕ) | share (i : ℕ)

/-- One call that neither panics nor faults. -/
inductive PageStep (A : PageArray) (low : Option ℕ) : PageOp → Pages → Pages → Prop
  | alloc {s s' : Pages} {r : Option ℕ} (h : A.allocPage low s = .ok (r,s')) : PageStep A low .alloc s s'
  | free {s s' : Pages} {i : ℕ} (hi : i < A.npages) (h : A.freePage s i = .ok s') : PageStep A low (.free i) s s'
  | share {s : Pages} {i : ℕ} (hi : i < A.npages) (h : 1 ≤ s.ref i) (hmax : s.ref i < 2^63 - 1) :
      PageStep A low (.share i) s (s.setWord i ((s.info i).word + 1))

end Ukern
