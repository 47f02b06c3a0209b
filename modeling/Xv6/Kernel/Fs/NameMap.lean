import Xv6.Kernel.Fs.Directory
import Xv6.Lib.Run

/-! A directory that is locked, and the calls that add and remove names in it. -/
namespace Xv6.Fs
open Lib SlotMap

inductive DirOp
  | link (name : Bytes) (inum : ℕ)
  | unlink (name : Bytes)

/-- A call of `dirlink`, or what `sys_unlink` does to the directory: the name is looked up, its entry
taken away, and the inode put back. -/
def DirOp.exec (sb : Superblock) (dp : Fin ninode) : DirOp → FsM Unit
  | .link name inum => do
    let _ ← dirlink sb dp name inum
  | .unlink name => do
    match ← dirlookup sb dp name with
    | none => return
    | some (ip, off) => do
      iput sb ip
      eraseDirent sb dp off

def DirOp.step (sb : Superblock) (dp : Fin ninode) (s : State) (op : DirOp) : Except Halt State :=
  (op.exec sb dp s).map Prod.snd

/-- Entry `i` has the directory `j` locked, and no key stands in it twice. -/
structure IsDir (sb : Superblock) (L : Finset (Fin ninode)) (H : Multiset Handle) (i : Fin ninode) (j : ℕ)
    (s : State) : Prop where
  ok : Ok sb true L H s
  mem : (i, j) ∈ H
  locked : i ∈ L
  type : (s.disk.node j).type = .dir
  aligned : direntSize ∣ (s.disk.content j).length
  unique : Unique (slots (s.disk.content j))

section
variable {sb : Superblock} {L : Finset (Fin ninode)} {H : Multiset Handle} {i : Fin ninode} {j : ℕ} {s s' : State}

/-- What the key of a name is bound to, with its slot. -/
def State.bound (s : State) (j : ℕ) (key : Key) : Option (ℕ × ℕ) := find key (slots (s.disk.content j))

theorem IsDir.write (h : IsDir sb L H i j s) (hok : Ok sb true L H s') {c : List UInt8} (hc : direntSize ∣ c.length)
    (hfile : s'.disk.file sb = Function.update (s.disk.file sb) j (some { s.disk.toNode j with content := c }))
    (hu : Unique (slots c)) : IsDir sb L H i j s' ∧ s'.disk.content j = c := by
  have hf : s'.disk.file sb j = some { s.disk.toNode j with content := c } := by rw [hfile, Function.update_self]
  rw [hok.file h.mem h.locked, Option.some.injEq] at hf
  have hcontent : s'.disk.content j = c := congrArg Node.content hf
  have htype : (s'.disk.node j).type = .dir := (congrArg Node.type hf).trans h.type
  exact ⟨⟨hok, h.mem, h.locked, htype, hcontent ▸ hc, hcontent ▸ hu⟩, hcontent⟩

theorem IsDir.read (h : IsDir sb L H i j s) (hok : Ok sb true L H s') (hdisk : s'.disk = s.disk) :
    IsDir sb L H i j s' :=
  ⟨hok, h.mem, h.locked, hdisk ▸ h.type, hdisk ▸ h.aligned, hdisk ▸ h.unique⟩

theorem Ok.ref_eq {t : Bool} (h : Ok sb t L H s) (h' : Ok sb t L H s') (k : Fin ninode) :
    (s'.inode k).ref = (s.inode k).ref := by rw [h'.ref k, h.ref k]

/-- The errors of a call: the cache is full, the disk is full, or the directory is. -/
def DirFails (s : State) (j : ℕ) (e : Halt) : Prop :=
  e = .panic .igetNoInodes ∨ e = .panic .ballocOutOfBlocks ∨
    e = .panic .dirlink ∧ maxfile * bsize < direntSize * (free (slots (s.disk.content j)) + 1)

theorem IsDir.dirlookup (h : IsDir sb L H i j s) (name : Bytes) :
    Wp (fun e => e = .panic .igetNoInodes) (dirlookup sb i name) s fun r s' =>
      s'.disk = s.disk ∧ match s.bound j (keyOf name) with
      | none => r = none ∧ s' = s
      | some (n, inum) => ∃ ip, r = some (ip, direntSize * n) ∧ (s'.inode ip).inum = inum := by
  refine wp_dirlookup h.ok h.mem h.locked h.type h.aligned (fun _ => rfl) (fun hf => ?_) fun m inum ip s' hf hdisk _ _ hok => ?_
  · have hb : s.bound j (keyOf name) = none := hf
    rw [hb]
    exact ⟨rfl, rfl, rfl⟩
  · have hb : s.bound j (keyOf name) = some (m, inum) := hf
    rw [hb]
    exact ⟨hdisk, ip, rfl, hok.inum ip inum (Multiset.mem_cons_self _ _)⟩

theorem IsDir.dirlink (h : IsDir sb L H i j s) (name : Bytes) (inum : ℕ) :
    Wp (DirFails s j) (dirlink sb i name inum) s fun r s' => IsDir sb L H i j s' ∧
      match s.bound j (keyOf name) with
      | some _ => r = -1 ∧ s'.disk = s.disk ∧ ∀ k, (s'.inode k).ref = (s.inode k).ref
      | none => r = 0 ∧ (inum % 2 ^ 16 ≠ 0 → ∀ k, s'.bound j k =
          if k = keyOf name then some (free (slots (s.disk.content j)), inum % 2 ^ 16) else s.bound j k) := by
  refine wp_dirlink h.ok h.mem h.locked h.type h.aligned (.inl rfl) (.inr (.inl rfl)) (fun _ hfull => ?_)
    (fun m n s' hf hdisk _ hok => ?_) fun s' c hf _ hok hslots hlen hfile => ?_
  · exact .inr (.inr ⟨rfl, hfull⟩)
  · have hb : s.bound j (keyOf name) = some (m, n) := hf
    rw [hb]
    exact ⟨h.read hok hdisk, rfl, hdisk, h.ok.ref_eq hok⟩
  · have hb : s.bound j (keyOf name) = none := hf
    have hu : Unique (slots c) := by
      rw [hslots]
      unfold newEntry
      split_ifs with h0
      · exact h.unique.put_none (free_le _)
      · exact h.unique.insert hf _
    obtain ⟨hd, hcontent⟩ := h.write hok hlen hfile hu
    rw [hb]
    refine ⟨hd, rfl, fun h0 k => ?_⟩
    unfold State.bound
    rw [hcontent, hslots, newEntry, if_neg h0, h.unique.find_insert hf]

theorem IsDir.unlink (h : IsDir sb L H i j s) (name : Bytes) :
    Wp (DirFails s j) ((DirOp.unlink name).exec sb i) s fun _ s' => IsDir sb L H i j s' ∧
      (∀ k, (s'.inode k).ref = (s.inode k).ref) ∧
      ∀ k, s'.bound j k = if k = keyOf name then none else s.bound j k := by
  unfold DirOp.exec
  rw [wp_bind]
  refine wp_dirlookup h.ok h.mem h.locked h.type h.aligned (fun _ => .inl rfl) (fun hf => ?_) fun m n ip s₁ hf hdisk hv _ hok => ?_
  · dsimp only
    rw [wp_pure]
    refine ⟨h, fun _ => rfl, fun k => ?_⟩
    split_ifs with hk
    · rw [hk]
      exact hf
    · rfl
  · have hm : m < (slots (s.disk.content j)).length := by
      by_contra hge
      have := getElem?_of_find hf
      rw [List.getElem?_eq_none (not_lt.mp hge)] at this
      simp at this
    rw [length_slots] at hm
    dsimp only
    rw [wp_bind]
    refine wp_iput hok (fun hL => hv (hok.valid hL)) fun s₂ hcase _ hok₂ => ?_
    -- the inode was held before, or has not been read
    have hdisk₂ : s₂.disk = s.disk := by
      rcases hcase with ⟨hreap, -⟩ | ⟨-, hdisk₂⟩
      · exact absurd (hv hreap.1) (hreap.2.2 ip)
      · exact hdisk₂.trans hdisk
    have h₂ := h.read hok₂ hdisk₂
    refine wp_eraseDirent hok₂ h.mem h.locked h₂.aligned (hdisk₂ ▸ hm) (.inr (.inl rfl))
      fun s₃ c _ hok₃ hslots hlen hfile => ?_
    rw [hdisk₂] at hslots
    obtain ⟨h₃, hcontent⟩ := h₂.write hok₃ hlen hfile (by rw [hslots]; exact h.unique.erase m)
    refine ⟨h₃, h.ok.ref_eq hok₃, fun k => ?_⟩
    unfold State.bound
    rw [hcontent, hslots, h.unique.find_erase hf]

theorem DirOp.step_eq_ok {op : DirOp} (h : op.step sb i s = .ok s') : ∃ r, op.exec sb i s = .ok (r, s') := by
  unfold DirOp.step at h
  cases hx : op.exec sb i s with
  | ok r =>
    rw [hx] at h
    exact ⟨r.1, by rw [← Except.ok.inj h]⟩
  | error e =>
    rw [hx] at h
    cases h

theorem IsDir.step (h : IsDir sb L H i j s) {op : DirOp} (hs : op.step sb i s = .ok s') : IsDir sb L H i j s' := by
  obtain ⟨r, hr⟩ := DirOp.step_eq_ok hs
  cases op with
  | link name inum =>
    have hw : Wp (DirFails s j) ((DirOp.link name inum).exec sb i) s fun _ s' => IsDir sb L H i j s' := by
      unfold DirOp.exec
      rw [wp_bind]
      refine (h.dirlink name inum).mono fun r s' hr => ?_
      rw [wp_pure]
      exact hr.1
    exact hw.of_ok hr
  | unlink name => exact ((h.unlink name).of_ok hr).1

end

/-- A disk with an empty directory, inode 1, which entry 0 of the cache has locked. -/
def emptyDir : State where
  dinode j := if j = 1 then { Dinode.zero with type := .dir, nlink := 1 } else .zero
  bitmap b := decide (b < soleSb.nmeta)
  data _ := fun _ => 0
  trans := true
  logged := []
  inode i :=
    if i = 0 then { inum := 1, ref := 1, locked := true, valid := true, din := { Dinode.zero with type := .dir, nlink := 1 } }
    else { inum := 0, ref := 0, locked := false, valid := false, din := .zero }

theorem emptyDir_live {j : ℕ} (h : emptyDir.disk.Live soleSb j) : j = 1 := by
  by_contra hj
  have hn : emptyDir.disk.node j = .zero := if_neg hj
  exact h.2 (by rw [hn]; rfl)

theorem emptyDir_slot {j k : ℕ} (h : emptyDir.disk.Live soleSb j) (hk : k ≤ maxfile) : emptyDir.disk.slot j k = 0 := by
  obtain rfl := emptyDir_live h
  unfold View.slot
  rcases Dinode.slot_cases hk with hlt | ⟨e, he, rfl⟩ | rfl
  · rw [Dinode.slot_direct _ _ hlt]
    rfl
  · rw [Dinode.slot_entry_of_zero he rfl]
  · rw [Dinode.slot_ind]
    rfl

theorem emptyDir_sound : emptyDir.disk.Sound soleSb := by
  refine ⟨⟨fun b hb => decide_eq_true hb, fun j k hj hk h0 => ?_, fun j k j' k' hj _ hk _ h0 => ?_⟩, fun b hb _ hbit => ?_,
    fun j hj bn hbn => ?_⟩
  · exact absurd (emptyDir_slot hj hk) h0
  · exact absurd (emptyDir_slot hj hk) h0
  · have : b < soleSb.nmeta := of_decide_eq_true hbit
    omega
  · obtain rfl := emptyDir_live hj
    exact absurd hbn (Nat.not_lt_zero _)

theorem emptyDir_ok : Ok soleSb true {0} {(0, 1)} emptyDir := by
  have hmem : ∀ i j, ((i, j) : Handle) ∈ ({(0, 1)} : Multiset Handle) → i = 0 ∧ j = 1 := fun i j h => by
    simpa using h
  have hin : ∀ i, i ≠ 0 → (emptyDir.inode i) = { inum := 0, ref := 0, locked := false, valid := false, din := .zero } :=
    fun i hi => if_neg hi
  refine ⟨rfl, fun i => ?_, fun i j h => ?_, fun i k j h h' => ?_, fun i j h _ => ?_, fun i => ?_, fun i h => ?_,
    emptyDir_sound⟩
  · by_cases hi : i = 0
    · subst hi
      rfl
    · rw [hin i hi]
      simp [Ne.symm hi, hi]
  · obtain ⟨rfl, rfl⟩ := hmem i j h
    rfl
  · exact (hmem i j h).1.trans (hmem k j h').1.symm
  · obtain ⟨rfl, rfl⟩ := hmem i j h
    exact ⟨rfl, by decide, by decide⟩
  · by_cases hi : i = 0
    · subst hi
      simp [emptyDir]
    · rw [hin i hi]
      simp [hi]
  · obtain rfl := Finset.mem_singleton.mp h
    exact ⟨rfl, 1, Multiset.mem_singleton_self _⟩

theorem emptyDir_isDir : IsDir soleSb {0} {(0, 1)} 0 1 emptyDir where
  ok := emptyDir_ok
  mem := Multiset.mem_singleton_self _
  locked := Finset.mem_singleton_self _
  type := rfl
  aligned := ⟨0, rfl⟩
  unique m n k v w h := by simp [slots, View.content, State.disk, emptyDir, Dinode.zero] at h

end Xv6.Fs
