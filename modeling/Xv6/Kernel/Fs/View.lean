import Xv6.Kernel.Fs.Inode

/-! What the disk and the inode cache hold together: the inodes, the bitmap and the blocks of the
files. Every block of a file belongs to one slot of one inode. -/
namespace Xv6.Fs
open Lib Function

/-- The blocks before the data blocks. -/
def Superblock.nmeta (sb : Superblock) : ℕ := sb.bmapstart + sb.size / bpb + 1

/-- The address of block `bn` of the file, 0 where it has none. -/
def Dinode.blockAt (d : Dinode) (data : ℕ → Bytes) (bn : ℕ) : ℕ :=
  if bn < ndirect then d.addrs bn
  else if d.addrs ndirect = 0 then 0
  else (data (d.addrs ndirect)).get (4 * (bn - ndirect)) 4

/-- The block addresses an inode holds: those of its blocks, and last that of the indirect block. -/
def Dinode.slot (d : Dinode) (data : ℕ → Bytes) (k : ℕ) : ℕ :=
  if k < maxfile then d.blockAt data k else d.addrs ndirect

theorem lt_maxfile {k : ℕ} (h : k < ndirect) : k < maxfile := Nat.lt_add_right nindirect h

theorem entry_lt_maxfile {k : ℕ} (h : k < nindirect) : ndirect + k < maxfile := Nat.add_lt_add_left h ndirect

namespace Dinode
variable {d : Dinode} {data : ℕ → Bytes} {k : ℕ}

theorem slot_direct (d : Dinode) (data : ℕ → Bytes) (h : k < ndirect) : d.slot data k = d.addrs k := by
  rw [slot, if_pos (lt_maxfile h), blockAt, if_pos h]

theorem slot_entry (h : k < nindirect) (h0 : d.addrs ndirect ≠ 0) :
    d.slot data (ndirect + k) = (data (d.addrs ndirect)).get (4 * k) 4 := by
  rw [slot, if_pos (entry_lt_maxfile h), blockAt, if_neg (by omega), if_neg h0, Nat.add_sub_cancel_left]

theorem slot_entry_of_zero (h : k < nindirect) (h0 : d.addrs ndirect = 0) : d.slot data (ndirect + k) = 0 := by
  rw [slot, if_pos (entry_lt_maxfile h), blockAt, if_neg (by omega), if_pos h0]

theorem slot_ind (d : Dinode) (data : ℕ → Bytes) : d.slot data maxfile = d.addrs ndirect :=
  if_neg (lt_irrefl maxfile)

theorem slot_cases (h : k ≤ maxfile) : k < ndirect ∨ (∃ e < nindirect, k = ndirect + e) ∨ k = maxfile := by
  have hmax : maxfile = ndirect + nindirect := rfl
  by_cases h₁ : k < ndirect
  · exact .inl h₁
  · by_cases h₂ : k < maxfile
    · exact .inr (.inl ⟨k - ndirect, by omega, by omega⟩)
    · exact .inr (.inr (by omega))

theorem slot_congr {data' : ℕ → Bytes} (h : d.addrs ndirect ≠ 0 → data' (d.addrs ndirect) = data (d.addrs ndirect))
    (k : ℕ) : d.slot data' k = d.slot data k := by
  unfold slot blockAt
  split_ifs with h₁ h₂ h₃
  · rfl
  · rfl
  · rw [h h₃]
  · rfl

/-- Every block below the size of the file is there. -/
def NoHole (d : Dinode) (data : ℕ → Bytes) : Prop :=
  ∀ bn, bn * bsize < d.size → bn < maxfile ∧ d.slot data bn ≠ 0

/-- Byte `o` of the file. -/
def byte (d : Dinode) (data : ℕ → Bytes) (o : ℕ) : UInt8 := data (d.slot data (o / bsize)) (o % bsize)

end Dinode

structure View where
  node : ℕ → Dinode
  bitmap : ℕ → Bool
  data : ℕ → Bytes

namespace View

def slot (v : View) (j k : ℕ) : ℕ := (v.node j).slot v.data k

def byte (v : View) (j o : ℕ) : UInt8 := (v.node j).byte v.data o

/-- The bytes of a file. -/
def content (v : View) (j : ℕ) : List UInt8 := (List.range (v.node j).size).map (v.byte j)

def Live (sb : Superblock) (v : View) (j : ℕ) : Prop := j < sb.ninodes ∧ (v.node j).type ≠ .free

/-- The addresses held by inodes in use are distinct, and the bitmap has their blocks in use. -/
structure Owned (sb : Superblock) (v : View) : Prop where
  metadata : ∀ b < sb.nmeta, v.bitmap b = true
  used : ∀ j k, v.Live sb j → k ≤ maxfile → v.slot j k ≠ 0 →
    sb.nmeta ≤ v.slot j k ∧ v.slot j k < sb.size ∧ v.bitmap (v.slot j k) = true
  inj : ∀ j k j' k', v.Live sb j → v.Live sb j' → k ≤ maxfile → k' ≤ maxfile →
    v.slot j k ≠ 0 → v.slot j k = v.slot j' k' → j = j' ∧ k = k'

def NoHole (v : View) (j : ℕ) : Prop := (v.node j).NoHole v.data

variable {sb : Superblock} {v v' : View} {j k b : ℕ}

theorem byte_eq (v : View) (j o : ℕ) : v.byte j o = v.data (v.slot j (o / bsize)) (o % bsize) := rfl

theorem slot_maxfile (v : View) (j : ℕ) : v.slot j maxfile = (v.node j).addrs ndirect :=
  (v.node j).slot_ind v.data

/-- A block that was free is given to an empty slot. -/
structure Fills (sb : Superblock) (v v' : View) (j k b : ℕ) : Prop where
  node : ∀ i, (v'.node i).type = (v.node i).type
  slot : ∀ i l, v.Live sb i → l ≤ maxfile → v'.slot i l = if i = j ∧ l = k then b else v.slot i l
  bitmap : v'.bitmap = update v.bitmap b true
  free : v.bitmap b = false
  lt : b < sb.size

theorem live_congr (sb : Superblock) (h : ∀ i, (v'.node i).type = (v.node i).type) : v'.Live sb = v.Live sb := by
  funext i
  rw [Live, Live, h i]

theorem Owned.le_of_free (h : v.Owned sb) (hb : v.bitmap b = false) : sb.nmeta ≤ b := by
  by_contra hlt
  have := h.metadata b (by omega)
  simp [hb] at this

theorem Owned.ne_zero_of_free (h : v.Owned sb) (hb : v.bitmap b = false) : b ≠ 0 := by
  have hpos : 0 < sb.nmeta := Nat.succ_pos _
  exact (hpos.trans_le (h.le_of_free hb)).ne'

theorem Owned.slot_ne (h : v.Owned sb) (hb : v.bitmap b = false) (hj : v.Live sb j) (hk : k ≤ maxfile) :
    v.slot j k ≠ b := by
  rintro rfl
  by_cases h0 : v.slot j k = 0
  · exact h.ne_zero_of_free hb h0
  · simp [(h.used j k hj hk h0).2.2] at hb

theorem Owned.fills (h : v.Owned sb) (hf : Fills sb v v' j k b) : v'.Owned sb := by
  have hlive := live_congr sb hf.node
  refine ⟨fun a ha => ?_, fun i l hi hl h0 => ?_, fun i l i' l' hi hi' hl hl' h0 heq => ?_⟩
  · rw [hf.bitmap, update_apply, h.metadata a ha, ite_self]
  · rw [hlive] at hi
    rw [hf.slot i l hi hl] at h0 ⊢
    rw [hf.bitmap]
    by_cases hij : i = j ∧ l = k
    · rw [if_pos hij, update_self]
      exact ⟨h.le_of_free hf.free, hf.lt, rfl⟩
    · rw [if_neg hij] at h0 ⊢
      have hu := h.used i l hi hl h0
      rw [update_apply, hu.2.2, ite_self]
      exact ⟨hu.1, hu.2.1, rfl⟩
  · rw [hlive] at hi hi'
    rw [hf.slot i l hi hl] at h0 heq
    rw [hf.slot i' l' hi' hl'] at heq
    split_ifs at h0 heq with hij hij' hij'
    · exact ⟨hij.1.trans hij'.1.symm, hij.2.trans hij'.2.symm⟩
    · exact absurd heq.symm (h.slot_ne hf.free hi' hl')
    · exact absurd heq (h.slot_ne hf.free hi hl)
    · exact h.inj i l i' l' hi hi' hl hl' h0 heq

/-- What a change of the content of `j` leaves alone. A slot can only become filled, and with a
block that was free. -/
structure Keep (sb : Superblock) (j : ℕ) (v v' : View) : Prop where
  type : ∀ i, (v'.node i).type = (v.node i).type
  node : ∀ i, i ≠ j → v'.node i = v.node i
  slot : ∀ i k, v.Live sb i → k ≤ maxfile → v.slot i k ≠ 0 ∨ i ≠ j → v'.slot i k = v.slot i k
  other : ∀ i k, v.Live sb i → i ≠ j → k < maxfile → v.slot i k ≠ 0 →
    v'.data (v.slot i k) = v.data (v.slot i k)
  used : ∀ b, v'.bitmap b = true ↔
    v.bitmap b = true ∨ ∃ k ≤ maxfile, v.slot j k = 0 ∧ v'.slot j k = b ∧ b ≠ 0
  owned : v'.Owned sb

/-- `j` gets blocks, and they hold zeros. -/
structure Grow (sb : Superblock) (j : ℕ) (v v' : View) : Prop extends Keep sb j v v' where
  own : ∀ k, k < maxfile → v.slot j k ≠ 0 → v'.data (v.slot j k) = v.data (v.slot j k)
  fresh : ∀ k, k < maxfile → v.slot j k = 0 → v'.slot j k ≠ 0 → v'.data (v'.slot j k) = fun _ => 0

theorem Owned.grow_refl (h : v.Owned sb) : Grow sb j v v where
  type _ := rfl
  node _ _ := rfl
  slot _ _ _ _ _ := rfl
  other _ _ _ _ _ _ := rfl
  used b := by
    refine ⟨.inl, fun hb => ?_⟩
    rcases hb with hb | ⟨k, -, h0, hk, hne⟩
    · exact hb
    · exact absurd (hk.symm.trans h0) hne
  owned := h
  own _ _ _ := rfl
  fresh k hk h0 hne := absurd h0 hne

variable {v'' : View}

theorem Keep.live (h : Keep sb j v v') : v'.Live sb = v.Live sb := live_congr sb h.type

theorem Keep.trans (h : Keep sb j v v') (h' : Keep sb j v' v'') (hj : v.Live sb j) : Keep sb j v v'' where
  type i := (h'.type i).trans (h.type i)
  node i hi := (h'.node i hi).trans (h.node i hi)
  slot i k hi hk hor := by
    have h₁ := h.slot i k hi hk hor
    rw [← h₁]
    refine h'.slot i k (by rwa [h.live]) hk ?_
    rwa [h₁]
  other i k hi hij hk h0 := by
    have h₁ := h.slot i k hi hk.le (.inl h0)
    rw [← h.other i k hi hij hk h0, ← h₁]
    exact h'.other i k (by rwa [h.live]) hij hk (by rwa [h₁])
  used b := by
    rw [h'.used b, h.used b]
    constructor
    · rintro ((hb | ⟨k, hk, h0, rfl, hne⟩) | ⟨k, hk, h0, hb, hne⟩)
      · exact .inl hb
      · exact .inr ⟨k, hk, h0, h'.slot j k (by rwa [h.live]) hk (.inl hne), hne⟩
      · by_cases hz : v.slot j k = 0
        · exact .inr ⟨k, hk, hz, hb, hne⟩
        · rw [h.slot j k hj hk (.inl hz)] at h0
          exact absurd h0 hz
    · rintro (hb | ⟨k, hk, h0, hb, hne⟩)
      · exact .inl (.inl hb)
      · by_cases hz : v'.slot j k = 0
        · exact .inr ⟨k, hk, hz, hb, hne⟩
        · rw [h'.slot j k (by rwa [h.live]) hk (.inl hz)] at hb
          exact .inl (.inr ⟨k, hk, h0, hb, hne⟩)
  owned := h'.owned

theorem Grow.trans (h : Grow sb j v v') (h' : Grow sb j v' v'') (hj : v.Live sb j) : Grow sb j v v'' where
  toKeep := h.toKeep.trans h'.toKeep hj
  own k hk h0 := by
    have h₁ := h.slot j k hj hk.le (.inl h0)
    rw [← h.own k hk h0, ← h₁]
    exact h'.own k hk (by rwa [h₁])
  fresh k hk h0 hne := by
    by_cases hz : v'.slot j k = 0
    · exact h'.fresh k hk hz hne
    · rw [h'.slot j k (by rwa [h.toKeep.live]) hk.le (.inl hz), h'.own k hk hz]
      exact h.fresh k hk h0 hz

theorem Owned.grow (h : v.Owned sb) (hf : Fills sb v v' j k b) (hj : v.Live sb j) (hk : k ≤ maxfile)
    (h0 : v.slot j k = 0) (hnode : ∀ i, i ≠ j → v'.node i = v.node i)
    (hdata : ∀ a, v.bitmap a = true → a ≠ v.slot j maxfile → v'.data a = v.data a)
    (hzero : k < maxfile → v'.data b = fun _ => 0) : Grow sb j v v' where
  type := hf.node
  node := hnode
  slot i l hi hl hor := by
    rw [hf.slot i l hi hl, if_neg]
    rintro ⟨rfl, rfl⟩
    rcases hor with hor | hor
    · exact hor h0
    · exact hor rfl
  other i l hi hij hl hne := by
    refine hdata _ (h.used i l hi hl.le hne).2.2 fun heq => ?_
    exact hij (h.inj i l j maxfile hi hj hl.le le_rfl hne heq).1
  used a := by
    rw [hf.bitmap, update_apply]
    constructor
    · intro ha
      split_ifs at ha with hab
      · refine .inr ⟨k, hk, h0, ?_, ?_⟩
        · rw [hf.slot j k hj hk, if_pos ⟨rfl, rfl⟩, hab]
        · rw [hab]
          exact h.ne_zero_of_free hf.free
      · exact .inl ha
    · rintro (ha | ⟨l, hl, hl0, hla, hne⟩)
      · rw [ha, ite_self]
      · rw [hf.slot j l hj hl, hl0] at hla
        split_ifs at hla with hjl
        · rw [if_pos hla.symm]
        · exact absurd hla.symm hne
  owned := h.fills hf
  own l hl hne := by
    refine hdata _ (h.used j l hj hl.le hne).2.2 fun heq => ?_
    have := (h.inj j l j maxfile hj hj hl.le le_rfl hne heq).2
    omega
  fresh l hl hl0 hne := by
    rw [hf.slot j l hj hl.le] at hne ⊢
    split_ifs at hne ⊢ with hjl
    · exact hzero (hjl.2 ▸ hl)
    · exact absurd hl0 hne

/-- A block of a file other than the indirect one is rewritten. -/
def store (v : View) (b : ℕ) (block : Bytes) : View := { v with data := update v.data b block }

theorem Owned.slot_store (h : v.Owned sb) (hj : v.Live sb j) (hk : k < maxfile) (hne : v.slot j k ≠ 0)
    (block : Bytes) {i l : ℕ} (hi : v.Live sb i) : (v.store (v.slot j k) block).slot i l = v.slot i l := by
  refine Dinode.slot_congr (fun h0 => ?_) l
  refine update_of_ne (fun heq => ?_) _ _
  have hmax := v.slot_maxfile i
  have := h.inj j k i maxfile hj hi hk.le le_rfl hne (heq.symm.trans hmax.symm)
  omega

theorem Owned.store (h : v.Owned sb) (hj : v.Live sb j) (hk : k < maxfile) (hne : v.slot j k ≠ 0)
    (block : Bytes) : (v.store (v.slot j k) block).Owned sb := by
  refine ⟨h.metadata, fun i l hi hl h0 => ?_, fun i l i' l' hi hi' hl hl' h0 heq => ?_⟩
  · rw [h.slot_store hj hk hne block hi] at h0 ⊢
    exact h.used i l hi hl h0
  · rw [h.slot_store hj hk hne block hi] at h0 heq
    rw [h.slot_store hj hk hne block hi'] at heq
    exact h.inj i l i' l' hi hi' hl hl' h0 heq

theorem Owned.keep_store (h : v.Owned sb) (hj : v.Live sb j) (hk : k < maxfile) (hne : v.slot j k ≠ 0)
    (block : Bytes) : Keep sb j v (v.store (v.slot j k) block) where
  type _ := rfl
  node _ _ := rfl
  slot i l hi _ _ := h.slot_store hj hk hne block hi
  other i l hi hij hl h0 := by
    refine update_of_ne (fun heq => ?_) _ _
    exact hij (h.inj i l j k hi hj hl.le hk.le h0 heq).1
  used b := by
    refine ⟨.inl, fun hb => ?_⟩
    rcases hb with hb | ⟨l, -, h0, hl, hb⟩
    · exact hb
    · rw [h.slot_store hj hk hne block hj, h0] at hl
      exact absurd hl.symm hb
  owned := h.store hj hk hne block

/-- The inode is rewritten, its addresses and its type apart. -/
def setNode (v : View) (j : ℕ) (d : Dinode) : View := { v with node := update v.node j d }

theorem slot_setNode {d : Dinode} (ha : d.addrs = (v.node j).addrs) (i l : ℕ) :
    (v.setNode j d).slot i l = v.slot i l := by
  unfold slot setNode
  dsimp only
  by_cases hi : i = j
  · subst hi
    rw [update_self]
    unfold Dinode.slot Dinode.blockAt
    rw [ha]
  · rw [update_of_ne hi]

theorem byte_setNode {d : Dinode} (ha : d.addrs = (v.node j).addrs) (i o : ℕ) :
    (v.setNode j d).byte i o = v.byte i o := by
  rw [byte_eq, byte_eq, slot_setNode ha]
  rfl

theorem Owned.keep_setNode {d : Dinode} (h : v.Owned sb) (ht : d.type = (v.node j).type)
    (ha : d.addrs = (v.node j).addrs) : Keep sb j v (v.setNode j d) := by
  have htype : ∀ i, ((v.setNode j d).node i).type = (v.node i).type := by
    intro i
    unfold setNode
    dsimp only
    by_cases hi : i = j
    · rw [hi, update_self, ht]
    · rw [update_of_ne hi]
  refine ⟨htype, fun i hi => update_of_ne hi _ _, fun i l _ _ _ => slot_setNode ha i l,
    fun _ _ _ _ _ _ => rfl, fun b => ⟨.inl, fun hb => ?_⟩, h.metadata, ?_, ?_⟩
  · rcases hb with hb | ⟨l, -, h0, hl, hb⟩
    · exact hb
    · rw [slot_setNode ha, h0] at hl
      exact absurd hl.symm hb
  · rw [live_congr sb htype]
    simp only [slot_setNode ha]
    exact h.used
  · rw [live_congr sb htype]
    simp only [slot_setNode ha]
    exact h.inj

end View

end Xv6.Fs
