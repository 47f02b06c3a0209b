import Xv6.Kernel.Param
import Xv6.Kernel.Vm.Copyin
import Mathlib.Tactic.Simps.Basic

/-! `kalloc.c` and the user page tables of `vm.c`. A page table is the tree of its pages:
a page-table page belongs to one table, so its address says no more than the tree does. -/
namespace Xv6.Vm
open Lib

/-- The number of a page that `kalloc` hands out. -/
abbrev Page := ℕ

/-- What a leaf entry can point to: the page of `trampoline.S`, which is part of the kernel
and not from `kalloc`, or a page with a number. -/
inductive Frame
  | trampoline
  | page (pa : Page)
  deriving DecidableEq

/-- `kmem.freelist`; for each of the next calls of `kalloc` whether it fails even if there
is a free page, where calls beyond the list do not fail so; and the bytes in the pages. The
entries of a page-table page are in its table and not here. -/
structure Mem where
  free : List Page
  fails : List Bool
  data : Frame → Bytes

/-- Store bytes in a page. -/
@[simps -fullyApplied] def Mem.write (m : Mem) (f : Frame) (b : Bytes) : Mem :=
  { m with data := Function.update m.data f b }

abbrev K := StateT Mem (Except Halt)

def kalloc : K (Option Page) := fun m =>
  match m.fails.headD false, m.free with
  | false, pa :: free =>
    .ok (some pa, Mem.write { m with free, fails := m.fails.tail } (.page pa) fun _ => 5)
  | _, _ => .ok (none, { m with fails := m.fails.tail })

def kfree : Frame → K Unit
  | .trampoline => throw (.panic .kfree)
  | .page pa => modify fun m => Mem.write { m with free := pa :: m.free } (.page pa) fun _ => 1

/-- `memset` or `memmove` on a whole page. -/
def fill (f : Frame) (b : Bytes) : K Unit := modify fun m => m.write f b

/-- `PTE_R`, `PTE_W`, `PTE_X`, `PTE_U` and the five flags above them; every leaf is made with
`PTE_R`, `PTE_W` or `PTE_X`. -/
structure Perm where
  r : Bool
  w : Bool
  x : Bool
  u : Bool
  rest : Fin 32
  leaf : (r || w || x) = true
  deriving DecidableEq

/-- A leaf entry with `PTE_V` set. -/
structure Pte where
  pa : Frame
  perm : Perm
  deriving DecidableEq

/-- A page of a page table; an entry without `PTE_V` is `none`. -/
structure Node (α : Type) where
  page : Page
  entry : Fin 512 → Option α

@[simps -fullyApplied] def Node.set {α : Type} (n : Node α) (i : Fin 512) (e : Option α) : Node α :=
  { n with entry := Function.update n.entry i e }

/-- `memset(pagetable, 0, PGSIZE)` -/
@[simps -fullyApplied] def Node.empty (α : Type) (page : Page) : Node α :=
  { page, entry := fun _ => none }

abbrev Pagetable := Node (Node (Node Pte))

def maxva : ℕ := 2 ^ 38
def trampoline : ℕ := maxva - pgsize
def trapframe : ℕ := trampoline - pgsize

/-- Where `walkaddr` finds a page, of those that are mapped. -/
def walks (mapped : ℕ → Bool) (a : ℕ) : Bool := a < maxva && mapped a

theorem lt_maxva_of_walks {mapped : ℕ → Bool} {a : ℕ} (h : walks mapped (pgRoundDown a) = true) : a < maxva := by
  rw [walks, Bool.and_eq_true, decide_eq_true_iff] at h
  have hlt := h.1
  unfold maxva at *
  unfold pgRoundDown pgsize at hlt
  omega

def pgRoundUp (sz : ℕ) : ℕ := (sz + pgsize - 1) % 2 ^ 64 / pgsize * pgsize

/-- `PX(level, va)` -/
def px (level va : ℕ) : Fin 512 := ⟨va / pgsize / 512 ^ level % 512, Nat.mod_lt _ (by decide)⟩

/-- One turn of the loop of `walk`: the page-table page that an entry points to. -/
def Node.child {α : Type} (n : Node (Node α)) (i : Fin 512) (alloc : Bool) :
    K (Option (Node α)) :=
  match n.entry i with
  | some c => return some c
  | none => do
    if !alloc then return none
    let pa ← kalloc
    return pa.map (Node.empty α)

/-- The table with the pages that `walk` has added, and whether it returns an entry. -/
def walk (t : Pagetable) (va : ℕ) (alloc : Bool) : K (Pagetable × Bool) := do
  if maxva ≤ va then throw (.panic .walk)
  match ← t.child (px 2 va) alloc with
  | none => return (t, false)
  | some t₁ =>
    match ← t₁.child (px 1 va) alloc with
    | none => return (t.set (px 2 va) (some t₁), false)
    | some t₀ => return (t.set (px 2 va) (some (t₁.set (px 1 va) (some t₀))), true)

/-- `*pte` for the entry that `walk` returns. -/
def Node.pte (t : Pagetable) (va : ℕ) : Option Pte :=
  (t.entry (px 2 va)).bind fun t₁ => (t₁.entry (px 1 va)).bind fun t₀ => t₀.entry (px 0 va)

/-- `*pte = e` for the entry that `walk` returns. -/
def Node.setPte (t : Pagetable) (va : ℕ) (e : Option Pte) : Pagetable :=
  match t.entry (px 2 va) with
  | none => t
  | some t₁ =>
    match t₁.entry (px 1 va) with
    | none => t
    | some t₀ => t.set (px 2 va) (some (t₁.set (px 1 va) (some (t₀.set (px 0 va) e))))

/-- The page of a user address, for `copyout`, `loadseg` and the like. -/
def walkaddr (t : Pagetable) (va : ℕ) : Option Frame :=
  if maxva ≤ va then none
  else match t.pte va with
    | none => none
    | some pte => if pte.perm.u then some pte.pa else none

/-- `pa + PGSIZE`, in 64 bits. -/
def Frame.next : Frame → Frame
  | .trampoline => .trampoline
  | .page pa => .page ((pa + 1) % 2 ^ 52)

/-- The loop of `mappages` over `n` pages. -/
def mappagesLoop (perm : Perm) : ℕ → Pagetable → ℕ → Frame → K (Pagetable × Bool)
  | 0, t, _, _ => return (t, true)
  | n + 1, t, a, pa => do
    let (t, found) ← walk t a true
    if !found then return (t, false)
    if (t.pte a).isSome then throw (.panic .remap)
    mappagesLoop perm n (t.setPte a (some ⟨pa, perm⟩)) (a + pgsize) pa.next

/-- The flag is whether it returns 0. The loop ends where `a == last`, in 64 bits. -/
def mappages (t : Pagetable) (va size : ℕ) (pa : Frame) (perm : Perm) : K (Pagetable × Bool) :=
  let a := pgRoundDown va
  let last := pgRoundDown ((va + size + 2 ^ 64 - 1) % 2 ^ 64)
  mappagesLoop perm ((last + 2 ^ 64 - a) % 2 ^ 64 / pgsize + 1) t a pa

/-- The loop of `uvmunmap` over `n` pages. -/
def uvmunmapLoop (doFree : Bool) : ℕ → Pagetable → ℕ → K Pagetable
  | 0, t, _ => return t
  | n + 1, t, a => do
    let (t, found) ← walk t a false
    if !found then throw (.panic .uvmunmapWalk)
    match t.pte a with
    | none => throw (.panic .uvmunmapNotMapped)
    | some pte =>
      if !(pte.perm.r || pte.perm.w || pte.perm.x || pte.perm.u || pte.perm.rest ≠ 0) then
        throw (.panic .uvmunmapNotALeaf)
      if doFree then kfree pte.pa
      uvmunmapLoop doFree n (t.setPte a none) (a + pgsize)

def uvmunmap (t : Pagetable) (va npages : ℕ) (doFree : Bool) : K Pagetable := do
  if va % pgsize ≠ 0 then throw (.panic .uvmunmapNotAligned)
  uvmunmapLoop doFree (((va + npages * pgsize) % 2 ^ 64 - va) / pgsize) t va

def uvmcreate : K (Option Pagetable) := do
  let pa ← kalloc
  return pa.map (Node.empty _)

/-- A number that goes through an `int` on its way to a `uint64`. -/
def throughInt (n : ℕ) : ℕ := if n % 2 ^ 32 < 2 ^ 31 then n % 2 ^ 32 else n % 2 ^ 32 + 2 ^ 64 - 2 ^ 32

def uvmdealloc (t : Pagetable) (oldsz newsz : ℕ) : K (Pagetable × ℕ) := do
  if oldsz ≤ newsz then return (t, oldsz)
  if pgRoundUp newsz < pgRoundUp oldsz then
    let npages := (pgRoundUp oldsz - pgRoundUp newsz) / pgsize
    let t ← uvmunmap t (pgRoundUp newsz) (throughInt npages) true
    return (t, newsz)
  return (t, newsz)

def permRX : Perm := ⟨true, false, true, false, 0, rfl⟩
def permRW : Perm := ⟨true, true, false, false, 0, rfl⟩
def permRWXU : Perm := ⟨true, true, true, true, 0, rfl⟩

/-- The loop of `uvmalloc` over `n` pages from `a` on; the flag is whether it gets to its
end. -/
def uvmallocLoop (oldsz : ℕ) : ℕ → Pagetable → ℕ → K (Pagetable × Bool)
  | 0, t, _ => return (t, true)
  | n + 1, t, a => do
    match ← kalloc with
    | none =>
      let (t, _) ← uvmdealloc t a oldsz
      return (t, false)
    | some mem =>
      fill (.page mem) fun _ => 0
      let (t, mapped) ← mappages t a pgsize (.page mem) permRWXU
      if !mapped then
        kfree (.page mem)
        let (t, _) ← uvmdealloc t a oldsz
        return (t, false)
      uvmallocLoop oldsz n t (a + pgsize)

/-- The new size, or 0 on error. -/
def uvmalloc (t : Pagetable) (oldsz newsz : ℕ) : K (Pagetable × ℕ) := do
  if newsz < oldsz then return (t, oldsz)
  let a := pgRoundUp oldsz
  let (t, done) ← uvmallocLoop a ((newsz - a + pgsize - 1) / pgsize) t a
  return (t, if done then newsz else 0)

/-- `freewalk` on the pages of one level, given how it frees what an entry points to. -/
def freewalkNode {α : Type} (freeEntry : α → K Unit) (n : Node α) : K Unit := do
  (List.finRange 512).forM fun i => (n.entry i).elim (pure ()) freeEntry
  kfree (.page n.page)

def freewalk (t : Pagetable) : K Unit :=
  freewalkNode (freewalkNode (freewalkNode fun _ => throw (.panic .freewalkLeaf))) t

def uvmfree (t : Pagetable) (sz : ℕ) : K Unit := do
  if 0 < sz then
    let t ← uvmunmap t 0 (pgRoundUp sz / pgsize) true
    freewalk t
  else freewalk t

/-- The loop of `uvmcopy` over `n` pages from `i` on; the flag is whether it gets to its
end. -/
def uvmcopyLoop (old : Pagetable) : ℕ → Pagetable → ℕ → K (Pagetable × Bool)
  | 0, new, _ => return (new, true)
  | n + 1, new, i => do
    let (_, found) ← walk old i false
    if !found then throw (.panic .uvmcopyPteShouldExist)
    match old.pte i with
    | none => throw (.panic .uvmcopyPageNotPresent)
    | some pte =>
      match ← kalloc with
      | none =>
        let new ← uvmunmap new 0 (i / pgsize) true
        return (new, false)
      | some mem =>
        let m ← get
        fill (.page mem) (m.data pte.pa)
        let (new, mapped) ← mappages new i pgsize (.page mem) pte.perm
        if !mapped then
          kfree (.page mem)
          let new ← uvmunmap new 0 (i / pgsize) true
          return (new, false)
        uvmcopyLoop old n new (i + pgsize)

/-- The flag is whether it returns 0. -/
def uvmcopy (old new : Pagetable) (sz : ℕ) : K (Pagetable × Bool) :=
  uvmcopyLoop old ((sz + pgsize - 1) / pgsize) new 0

def uvmclear (t : Pagetable) (va : ℕ) : K Pagetable := do
  let (t, found) ← walk t va false
  if !found then throw (.panic .uvmclear)
  return t.setPte va ((t.pte va).map fun pte => { pte with perm := { pte.perm with u := false } })

/-- The loop of `copyout`, of the bytes `src[k ..]`; whether it returns 0. Every turn copies
a byte, so `fuel` need not exceed `len`. -/
def copyoutLoop (t : Pagetable) (src : Bytes) : ℕ → ℕ → ℕ → ℕ → K Bool
  | 0, _, _, len => return decide (len = 0)
  | fuel + 1, dstva, k, len =>
    if len = 0 then return true
    else
      let va0 := pgRoundDown dstva
      match walkaddr t va0 with
      | none => return false
      | some pa0 => do
        let n := min (pgsize - (dstva - va0)) len
        modify fun m => m.write pa0 ((m.data pa0).blit (dstva - va0) n fun j => src (k + j))
        copyoutLoop t src fuel ((va0 + pgsize) % 2 ^ 64) (k + n) (len - n)

def copyout (t : Pagetable) (dstva : ℕ) (src : Bytes) (len : ℕ) : K Bool :=
  copyoutLoop t src len dstva 0 len

end Xv6.Vm
