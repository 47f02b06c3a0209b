import Xv6.Kernel.Vm.Pagetable

/-! The page tables of `vm.c` as they stand in physical memory: pages of 512 words, read and
written with the macros of `riscv.h`. -/
namespace Xv6.Vm

abbrev U64 := BitVec 64

/-- Physical memory as words, and the state of `kalloc` as in `Mem`. -/
structure Ram where
  word : Page → Fin 512 → U64
  free : List Page
  fails : List Bool

abbrev R := StateT Ram (Except Halt)

namespace Ram

def pteV : U64 := 1
def pteU : U64 := 1 <<< 4
def pa2pte (pa : U64) : U64 := pa >>> 12 <<< 10
def pte2pa (pte : U64) : U64 := pte >>> 10 <<< 12
def pteFlags (pte : U64) : U64 := pte &&& 0x3FF
def pgRoundUp (sz : U64) : U64 := (sz + 4096 - 1) &&& ~~~(4096 - 1)
def pgRoundDown (a : U64) : U64 := a &&& ~~~(4096 - 1)
def maxva : U64 := 1 <<< 38

/-- `PX(level, va)` -/
def px (level : ℕ) (va : U64) : Fin 512 :=
  ⟨(va >>> (12 + 9 * level) &&& 0x1FF).toNat, by
    rw [BitVec.toNat_and]
    exact Nat.lt_of_le_of_lt Nat.and_le_right (by decide)⟩

/-- The page that an address points into, and the address of a page. -/
def pageOf (pa : U64) : ℕ := pa.toNat / pgsize
def addr (p : ℕ) : U64 := BitVec.ofNat 64 (p * pgsize)

/-- `*pte`, where a pointer to an entry is the page of the entry and its index. -/
def load (pte : U64 × Fin 512) : R U64 := do return (← get).word (pageOf pte.1) pte.2

/-- Memory after `*pte = w`. -/
def put (word : Page → Fin 512 → U64) (p : Page) (i : Fin 512) (w : U64) : Page → Fin 512 → U64 :=
  Function.update word p (Function.update (word p) i w)

def store (pte : U64 × Fin 512) (w : U64) : R Unit :=
  modify fun s => { s with word := put s.word (pageOf pte.1) pte.2 w }

/-- `memset(pa, c, PGSIZE)` -/
def memset (pa : U64) (c : U64) : R Unit :=
  modify fun s => { s with word := Function.update s.word (pageOf pa) fun _ => c * 0x0101010101010101 }

def kalloc : R (Option U64) := do
  let s ← get
  match s.fails.headD false, s.free with
  | false, p :: free =>
    set { s with free, fails := s.fails.tail }
    memset (addr p) 5
    return some (addr p)
  | _, _ =>
    set { s with fails := s.fails.tail }
    return none

/-- `kfree`, where the linker has put `end` at `kend`. -/
def kfree (kend : U64) (pa : U64) : R Unit := do
  if pa.toNat % pgsize ≠ 0 ∨ pa < kend ∨ phystop ≤ pa.toNat then throw (.panic .kfree)
  memset pa 1
  let s ← get
  store (pa, 0) ((s.free.head?.map addr).getD 0)
  modify fun s => { s with free := pageOf pa :: s.free }

/-- One turn of the loop of `walk`. -/
def walkTurn (level : ℕ) (pagetable va : U64) (alloc : Bool) : R (Option U64) := do
  let pte := (pagetable, px level va)
  let w ← load pte
  if w &&& pteV ≠ 0 then return some (pte2pa w)
  if !alloc then return none
  match ← kalloc with
  | none => return none
  | some pagetable =>
    memset pagetable 0
    store pte (pa2pte pagetable ||| pteV)
    return some pagetable

def walkLoop (va : U64) (alloc : Bool) : ℕ → U64 → R (Option U64)
  | 0, pagetable => return some pagetable
  | level + 1, pagetable => do
    match ← walkTurn (level + 1) pagetable va alloc with
    | none => return none
    | some pagetable => walkLoop va alloc level pagetable

def walk (pagetable va : U64) (alloc : Bool) : R (Option (U64 × Fin 512)) := do
  if maxva ≤ va then throw (.panic .walk)
  match ← walkLoop va alloc 2 pagetable with
  | none => return none
  | some pagetable => return some (pagetable, px 0 va)

/-- The loop of `mappages`; whether it returns 0. -/
def mappagesLoop (pagetable last : U64) (perm : BitVec 10) : ℕ → U64 → U64 → R Bool
  | 0, _, _ => throw .blocked
  | fuel + 1, a, pa => do
    match ← walk pagetable a true with
    | none => return false
    | some pte =>
      if (← load pte) &&& pteV ≠ 0 then throw (.panic .remap)
      store pte (pa2pte pa ||| perm.setWidth 64 ||| pteV)
      if a = last then return true
      mappagesLoop pagetable last perm fuel (a + 4096) (pa + 4096)

/-- `perm` is an `int` of which the flags of an entry are used. There are `2 ^ 52` page
numbers, so the loop makes no more turns. -/
def mappages (pagetable va size pa : U64) (perm : BitVec 10) : R Bool :=
  mappagesLoop pagetable (pgRoundDown (va + size - 1)) perm (2 ^ 52) (pgRoundDown va) pa

def uvmunmapLoop (kend pagetable stop : U64) (doFree : Bool) : ℕ → U64 → R Unit
  | 0, _ => throw .blocked
  | fuel + 1, a => do
    if a < stop then
      match ← walk pagetable a false with
      | none => throw (.panic .uvmunmapWalk)
      | some pte =>
        let w ← load pte
        if w &&& pteV = 0 then throw (.panic .uvmunmapNotMapped)
        if pteFlags w = pteV then throw (.panic .uvmunmapNotALeaf)
        if doFree then kfree kend (pte2pa w)
        store pte 0
        uvmunmapLoop kend pagetable stop doFree fuel (a + 4096)

def uvmunmap (kend pagetable va npages : U64) (doFree : Bool) : R Unit := do
  if va.toNat % pgsize ≠ 0 then throw (.panic .uvmunmapNotAligned)
  uvmunmapLoop kend pagetable (va + npages * 4096) doFree (2 ^ 52) va

def uvmdealloc (kend pagetable oldsz newsz : U64) : R U64 := do
  if oldsz ≤ newsz then return oldsz
  if pgRoundUp newsz < pgRoundUp oldsz then
    let npages : BitVec 32 := ((pgRoundUp oldsz - pgRoundUp newsz) / 4096).setWidth 32
    uvmunmap kend pagetable (pgRoundUp newsz) (npages.signExtend 64) true
  return newsz

/-- `PTE_W | PTE_X | PTE_R | PTE_U` -/
def pteWXRU : BitVec 10 := 0b11110

/-- The loop of `uvmalloc`; whether it gets to its end. -/
def uvmallocLoop (kend pagetable oldsz newsz : U64) : ℕ → U64 → R Bool
  | 0, _ => throw .blocked
  | fuel + 1, a => do
    if a < newsz then
      match ← kalloc with
      | none =>
        let _ ← uvmdealloc kend pagetable a oldsz
        return false
      | some mem =>
        memset mem 0
        if !(← mappages pagetable a 4096 mem pteWXRU) then
          kfree kend mem
          let _ ← uvmdealloc kend pagetable a oldsz
          return false
        uvmallocLoop kend pagetable oldsz newsz fuel (a + 4096)
    else return true

def uvmalloc (kend pagetable oldsz newsz : U64) : R U64 := do
  if newsz < oldsz then return oldsz
  let oldsz := pgRoundUp oldsz
  let done ← uvmallocLoop kend pagetable oldsz newsz (2 ^ 52) oldsz
  return if done then newsz else 0

def uvmclear (pagetable va : U64) : R Unit := do
  match ← walk pagetable va false with
  | none => throw (.panic .uvmclear)
  | some pte =>
    let w ← load pte
    store pte (w &&& ~~~pteU)

/-- The page that a sequence of indices leads to from the page-table page `a`. -/
def follow (word : Page → Fin 512 → U64) : U64 → List (Fin 512) → Option U64
  | a, [] => some a
  | a, i :: path =>
    let w := word (pageOf a) i
    if w &&& pteV = 0 then none else follow word (pte2pa w) path

/-- What `walk` finds for an address: the physical page and the flags of the entry. -/
def translate (s : Ram) (pagetable va : U64) : Option (Page × BitVec 10) :=
  match walk pagetable va false s with
  | .ok (some pte, s') =>
    let w := s'.word (pageOf pte.1) pte.2
    if w &&& pteV = 0 then none else some (pageOf (pte2pa w), (pteFlags w).setWidth 10)
  | _ => none

end Ram
end Xv6.Vm
