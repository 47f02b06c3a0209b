import Xv6.Kernel.Fs.Read
import Xv6.Kernel.Fs.Trunc

/-! An inode is an array of bytes that `readi`, `writei` and `itrunc` read, overwrite and empty. -/
namespace Xv6.Fs
open Lib

/-- The bytes of `c` with those of `src` in place of what `c` has at `off`. -/
def overwrite (c : List UInt8) (off : ℕ) (src : List UInt8) : List UInt8 :=
  c.take off ++ src ++ c.drop (off + src.length)

theorem length_overwrite {c src : List UInt8} {off : ℕ} (h : off ≤ c.length) :
    (overwrite c off src).length = max c.length (off + src.length) := by
  simp only [overwrite, List.length_append, List.length_take, List.length_drop]
  omega

theorem getElem?_overwrite {c src : List UInt8} {off : ℕ} (h : off ≤ c.length) (o : ℕ) :
    (overwrite c off src)[o]? = if off ≤ o ∧ o < off + src.length then src[o - off]? else (c)[o]? := by
  have hlen : (c.take off).length = off := by rw [List.length_take, min_eq_left h]
  unfold overwrite
  by_cases h₁ : o < off
  · rw [if_neg (by omega), List.getElem?_append_left (by rw [List.length_append]; omega),
      List.getElem?_append_left (by omega), List.getElem?_take_of_lt h₁]
  · by_cases h₂ : o < off + src.length
    · rw [if_pos (by omega), List.getElem?_append_left (by rw [List.length_append]; omega),
        List.getElem?_append_right (by omega), hlen]
    · rw [if_neg (by omega), List.getElem?_append_right (by rw [List.length_append]; omega), List.getElem?_drop,
        List.length_append, hlen]
      congr 1
      omega

namespace View
variable {sb : Superblock} {v v' : View} {j : ℕ}

theorem length_content (v : View) (j : ℕ) : (v.content j).length = (v.node j).size := by
  simp [content]

theorem getElem?_content (v : View) (j : ℕ) {o : ℕ} (h : o < (v.node j).size) :
    (v.content j)[o]? = some (v.byte j o) := by
  simp [content, h]

theorem content_congr (hs : (v'.node j).size = (v.node j).size)
    (hb : ∀ o < (v.node j).size, v'.byte j o = v.byte j o) : v'.content j = v.content j := by
  unfold content
  rw [hs]
  exact List.map_congr_left fun o ho => hb o (List.mem_range.mp ho)

theorem NoHole.block {o : ℕ} (h : v.NoHole j) (ho : o < (v.node j).size) :
    o / bsize < maxfile ∧ v.slot j (o / bsize) ≠ 0 :=
  h _ ((Nat.div_mul_le_self o bsize).trans_lt ho)

theorem Keep.content {i : ℕ} (h : Keep sb j v v') (hi : i ≠ j) (hlive : v.Live sb i) (hh : v.NoHole i) :
    v'.content i = v.content i := by
  refine content_congr (by rw [h.node i hi]) fun o ho => ?_
  obtain ⟨hmx, hne⟩ := hh.block ho
  rw [byte_eq, byte_eq, h.slot i _ hlive hmx.le (.inr hi), h.other i _ hlive hi hmx hne]

theorem Keep.noHole {i : ℕ} (h : Keep sb j v v') (hi : i ≠ j) (hlive : v.Live sb i) (hh : v.NoHole i) :
    v'.NoHole i := by
  intro bn hbn
  rw [h.node i hi] at hbn
  obtain ⟨hmx, hne⟩ := hh bn hbn
  refine ⟨hmx, ?_⟩
  show v'.slot i bn ≠ 0
  rwa [h.slot i bn hlive hmx.le (.inr hi)]

end View

section
variable {sb : Superblock} {s s' : State} {i : Fin ninode} {src : Src}

theorem Writes.size {off n off' : ℕ} (h : Writes sb i src off n s off' s') (hi : s.Has i) :
    (s'.view.node (s.inode i).inum).size = max (s.view.node (s.inode i).inum).size off' := by
  rw [← h.touches.inum, (h.touches.has hi).node, h.din, h.touches.inum, hi.node]

end

namespace View
variable {sb : Superblock} {v v' : View} {src : Src} {j off n off' : ℕ}

theorem Wrote.noHole (h : Wrote sb j src 0 off n off' v v') (hlive : v.Live sb j)
    (hsize : (v'.node j).size = max (v.node j).size off') (hoff : off ≤ (v.node j).size)
    (hmax : off + n ≤ maxfile * bsize) (hh : v.NoHole j) : v'.NoHole j := by
  intro bn hbn
  rw [hsize] at hbn
  by_cases hold : bn * bsize < (v.node j).size
  · obtain ⟨hmx, hne⟩ := hh bn hold
    refine ⟨hmx, ?_⟩
    show v'.slot _ bn ≠ 0
    rwa [h.slot _ bn hlive hmx.le (.inl hne)]
  · have hle := h.le_add
    have hp := h.present (bn * bsize) (by omega) (by omega)
    rw [Nat.mul_div_cancel _ (by decide)] at hp
    refine ⟨?_, hp⟩
    have : bn * bsize < maxfile * bsize := by omega
    exact Nat.lt_of_mul_lt_mul_right this

theorem Wrote.content {f : Bytes} (h : Wrote sb j src 0 off n (off + n) v v')
    (hsize : (v'.node j).size = max (v.node j).size (off + n)) (hsrc : ∀ k < n, src.byte k = some (f k))
    (hoff : off ≤ (v.node j).size) (hh : v.NoHole j) :
    v'.content j = overwrite (v.content j) off ((List.range n).map f) := by
  have hlen : off ≤ (v.content j).length := by rwa [length_content]
  refine List.ext_getElem? fun o => ?_
  rw [getElem?_overwrite hlen, List.length_map, List.length_range]
  by_cases ho : o < (v'.node j).size
  · rw [getElem?_content _ _ ho]
    split_ifs with hin
    · rw [← h.bytes o hin.1 hin.2, Nat.zero_add, hsrc _ (by omega), List.getElem?_map,
        List.getElem?_range (by omega)]
      rfl
    · have hold : o < (v.node j).size := by omega
      obtain ⟨hmx, hne⟩ := hh.block hold
      rw [getElem?_content _ _ hold, h.rest o hmx hne (by omega)]
  · rw [List.getElem?_eq_none (by rw [length_content]; omega), if_neg (by omega),
      List.getElem?_eq_none (by rw [length_content]; omega)]

end View

section
variable {sb : Superblock} {s s' : State} {i : Fin ninode} {src : Src}

theorem writei_refused {off n : ℕ} (hn : n < 2 ^ 32)
    (h : (s.din i).size < off ∨ 2 ^ 32 ≤ off + n ∨ maxfile * bsize < off + n) :
    writei sb i src off n s = .ok (-1, s) := by
  unfold writei
  show (if (s.din i).size < off ∨ (off + n) % 2 ^ 32 < off then _ else _ : FsM ℤ) s = _
  by_cases h₁ : (s.din i).size < off ∨ (off + n) % 2 ^ 32 < off
  · rw [if_pos h₁]
    rfl
  · rw [if_neg h₁, if_pos (by omega)]
    rfl

theorem readi_eq {off n : ℕ} (hi : s.Has i) (hh : s.view.NoHole (s.inode i).inum) (hlt : off + n < 2 ^ 32)
    (mem : Bytes) : ∃ mem', readi sb i .kernel mem off n s =
        .ok (((((s.view.content (s.inode i).inum).drop off).take n).length, mem'), s) ∧
      (List.range (((s.view.content (s.inode i).inum).drop off).take n).length).map mem' =
        ((s.view.content (s.inode i).inum).drop off).take n ∧
      ∀ x, (((s.view.content (s.inode i).inum).drop off).take n).length ≤ x → mem' x = mem x := by
  have hnode := hi.node
  have hlen : (((s.view.content (s.inode i).inum).drop off).take n).length = readLen (s.din i) off n := by
    rw [List.length_take, List.length_drop, View.length_content, hnode, readLen, Nat.mod_eq_of_lt hlt]
    split_ifs with h
    · omega
    · rfl
  obtain ⟨r, s', hr, hs, -, hk⟩ :=
    (@wp_readi sb s i .kernel off n mem (by omega)
      (by rw [← hnode]; exact hh)).returns
  subst hs
  rw [hk rfl, Nat.zero_add] at hr
  rw [hlen]
  refine ⟨_, hr, ?_, fun x hx => if_neg (by omega)⟩
  refine List.ext_getElem? fun k => ?_
  by_cases hkl : k < readLen (s'.din i) off n
  · have hle := readLen_le hkl
    have hko : off + k < (s'.view.node (s'.inode i).inum).size := by
      rw [hnode]
      exact hle.1
    rw [List.getElem?_map, List.getElem?_range hkl, List.getElem?_take_of_lt hle.2, List.getElem?_drop,
      View.getElem?_content _ _ hko]
    show some (Bytes.blit _ _ _ _ k) = _
    rw [Bytes.blit, if_pos (by omega), Nat.sub_zero, View.byte, hnode]
    rfl
  · rw [List.getElem?_eq_none (by rw [List.length_map, List.length_range]; omega),
      List.getElem?_eq_none (by rw [hlen]; omega)]

/-- Entry `i` reads as a file with the bytes `c`, and to read it changes nothing. -/
def ReadsAs (sb : Superblock) (s : State) (i : Fin ninode) (c : List UInt8) : Prop :=
  ∀ o m mem, o + m < 2 ^ 32 → ∃ mem', readi sb i .kernel mem o m s = .ok ((((c.drop o).take m).length, mem'), s) ∧
    (List.range ((c.drop o).take m).length).map mem' = (c.drop o).take m ∧
    ∀ x, ((c.drop o).take m).length ≤ x → mem' x = mem x

/-- The other files have the bytes they had. -/
def SameFiles (sb : Superblock) (s : State) (i : Fin ninode) (s' : State) : Prop :=
  ∀ j, j ≠ (s.inode i).inum → s.view.Live sb j → s'.view.content j = s.view.content j

theorem Truncates.content (h : Truncates sb i s s') (hi : s.Has i) : s'.view.content (s.inode i).inum = [] := by
  have hsize : (s'.view.node (s.inode i).inum).size = 0 := by
    rw [h.touches.node hi, Function.update_self, h.din]
  unfold View.content
  rw [hsize]
  rfl

theorem Truncates.sameFiles (h : Truncates sb i s s') (hi : s.Has i) : SameFiles sb s i s' := by
  intro j hj _
  refine View.content_congr (by rw [h.node hi hj]) fun o _ => ?_
  rw [View.byte_eq, View.byte_eq, h.slot_other hi hj]
  show s'.data _ _ = _
  rw [h.data]
  rfl

end

/-- A disk of 20 blocks with one file, of one block, which entry 0 of the cache has locked. -/
def soleSb : Superblock := { size := 20, ninodes := 2, inodestart := 2, bmapstart := 3, size_lt := by decide }

def soleDinode (size : ℕ) : Dinode :=
  { type := .file, major := 0, minor := 0, nlink := 1, size := size, addrs := fun k => if k = 0 then 10 else 0 }

def sole (size : ℕ) : State where
  dinode j := if j = 1 then soleDinode size else .zero
  bitmap b := b < 4 || b == 10
  data _ _ := 0
  trans := true
  logged := []
  inode i :=
    if i = 0 then { inum := 1, ref := 1, locked := true, valid := true, din := soleDinode size }
    else { inum := 0, ref := 0, locked := false, valid := false, din := .zero }

theorem sole_has (size : ℕ) : (sole size).Has 0 := rfl

theorem sole_slot (size : ℕ) {k : ℕ} (hk : k ≤ maxfile) : (sole size).view.slot 1 k = if k = 0 then 10 else 0 := by
  have hnode : (sole size).view.node 1 = soleDinode size := (sole_has size).node
  rw [View.slot, hnode]
  rcases Dinode.slot_cases hk with hlt | ⟨e, he, rfl⟩ | rfl
  · exact Dinode.slot_direct _ _ hlt
  · rw [Dinode.slot_entry_of_zero he rfl, if_neg (by unfold ndirect; omega)]
  · rfl

theorem sole_live {size j : ℕ} (h : (sole size).view.Live soleSb j) : j = 1 := by
  obtain ⟨hj, ht⟩ := h
  have h2 : j < 2 := hj
  interval_cases j
  · exact absurd rfl ht
  · rfl

theorem sole_writable (size : ℕ) : Writable soleSb (sole size) 0 where
  has := sole_has size
  live := ⟨Nat.lt_succ_self 1, by rw [(sole_has size).node]; exact fun h => by cases h⟩
  owned := by
    refine ⟨fun b hb => ?_, fun j k hj hk hne => ?_, fun j k j' k' hj hj' hk hk' hne heq => ?_⟩
    · have : b < 4 := hb
      simp [State.view, sole, this]
    · obtain rfl := sole_live hj
      rw [sole_slot size hk] at hne ⊢
      split_ifs at hne ⊢ with h0
      · exact ⟨by decide, by decide, rfl⟩
      · exact absurd rfl hne
    · obtain rfl := sole_live hj
      obtain rfl := sole_live hj'
      rw [sole_slot size hk] at hne heq
      rw [sole_slot size hk'] at heq
      split_ifs at hne heq <;> omega

theorem sole_noHole {size : ℕ} (h : size ≤ bsize) (j : ℕ) (hj : (sole size).view.Live soleSb j) :
    (sole size).view.NoHole j := by
  obtain rfl := sole_live hj
  intro bn hbn
  rw [show (sole size).view.node 1 = soleDinode size from (sole_has size).node] at hbn
  have hb : bsize = 1024 := rfl
  have hsize : bn * bsize < size := hbn
  obtain rfl : bn = 0 := by
    rw [hb] at hsize h
    omega
  refine ⟨by decide, ?_⟩
  show (sole size).view.slot 1 0 ≠ 0
  rw [sole_slot size (Nat.zero_le _)]
  decide

end Xv6.Fs
