import Xv6.Kernel.Fs.Content
import Xv6.Kernel.Fs.Ledger

/-! The disk as a table of files, and what the functions of `fs.c` do to it. -/
namespace Xv6.Fs
open Lib Function

/-- An inode with its bytes in place of its blocks. -/
structure Node where
  type : FileType
  major : ℤ
  minor : ℤ
  nlink : ℤ
  content : List UInt8

namespace View

instance (sb : Superblock) (v : View) (j : ℕ) : Decidable (v.Live sb j) := inferInstanceAs (Decidable (_ ∧ _))

def toNode (v : View) (j : ℕ) : Node where
  type := (v.node j).type
  major := (v.node j).major
  minor := (v.node j).minor
  nlink := (v.node j).nlink
  content := v.content j

/-- The inodes in use. -/
def file (sb : Superblock) (v : View) (j : ℕ) : Option Node := if v.Live sb j then some (v.toNode j) else none

variable {sb : Superblock} {v v' : View} {j : ℕ}

theorem file_of_live (h : v.Live sb j) : v.file sb j = some (v.toNode j) := if_pos h

theorem file_eq_none : v.file sb j = none ↔ ¬ v.Live sb j := by
  unfold file
  split_ifs with h
  · simp [h]
  · simp [h]

theorem file_eq_update {o : Option Node} (hnode : ∀ l, l ≠ j → v'.node l = v.node l)
    (hcontent : ∀ l, l ≠ j → v.Live sb l → v'.content l = v.content l) (hj : v'.file sb j = o) :
    v'.file sb = update (v.file sb) j o := by
  funext l
  by_cases hl : l = j
  · rw [hl, update_self, hj]
  · rw [update_of_ne hl]
    have hlive : v'.Live sb l ↔ v.Live sb l := by
      unfold Live
      rw [hnode l hl]
    unfold file
    by_cases h : v.Live sb l
    · rw [if_pos h, if_pos (hlive.mpr h)]
      unfold toNode
      rw [hnode l hl, hcontent l hl h]
    · rw [if_neg h, if_neg fun h' => h (hlive.mp h')]

theorem Reaps.file (h : Reaps j v v') : v'.file sb = update (v.file sb) j none := by
  refine file_eq_update h.node (fun l hl _ => ?_) (file_eq_none.mpr fun hl => hl.2 h.type)
  unfold content byte
  rw [h.node l hl, h.data]

theorem Keep.sound (h : Keep sb j v v') (hs : v.Sound sb) (hj : v.Live sb j) (hhole : v'.NoHole j) : v'.Sound sb := by
  have hlive := h.live
  refine ⟨h.owned, fun b hb hlt hbit => ?_, fun l hl => ?_⟩
  · have hpos : 0 < sb.nmeta := Nat.succ_pos _
    rw [hlive]
    rcases (h.used b).mp hbit with hold | ⟨k, hk, -, hkb, -⟩
    · obtain ⟨l, k, hl, hk, rfl⟩ := hs.exact b hb hlt hold
      exact ⟨l, k, hl, hk, h.slot l k hl hk (.inl (by omega))⟩
    · exact ⟨j, k, hj, hk, hkb⟩
  · rw [hlive] at hl
    by_cases hlj : l = j
    · rw [hlj]
      exact hhole
    · exact h.noHole hlj hl (hs.noHole l hl)

end View

section
variable {sb : Superblock} {t : Bool} {L : Finset (Fin ninode)} {H : Multiset Handle} {s s' : State}
  {i : Fin ninode} {j : ℕ} {src : Src}

theorem Ok.file (h : Ok sb t L H s) (hm : (i, j) ∈ H) (hi : i ∈ L) : s.disk.file sb j = some (s.disk.toNode j) :=
  View.file_of_live (h.live hm (h.valid hi))

theorem Ok.node_eq (h : Ok sb t L H s) (hm : (i, j) ∈ H) (hi : i ∈ L) {g : Node} (hg : s.disk.file sb j = some g) :
    g = s.disk.toNode j := by
  rw [h.file hm hi] at hg
  exact (Option.some.inj hg).symm

theorem Ok.view_touches (h : Ok sb t L H s) (hm : (i, j) ∈ H) (hi : i ∈ L) (ht : State.Touches i s s')
    (hsaved : s'.dinode j = s'.din i) : s'.view = s'.disk := by
  have hnode : s'.view.node = s'.dinode := by
    rw [ht.node (h.has hm hi), h.inum _ _ hm, h.view_eq]
    funext l
    by_cases hl : l = j
    · rw [hl, update_self, hsaved]
    · rw [update_of_ne hl]
      exact (ht.dinode l (by rwa [h.inum _ _ hm])).symm
  show ({ node := s'.view.node, bitmap := s'.bitmap, data := s'.data } : View) = _
  rw [hnode]
  rfl

theorem Ok.setDin (h : Ok sb t L H s) (hm : (i, j) ∈ H) (hi : i ∈ L) {d : Dinode} (ha : d.addrs = (s.din i).addrs)
    (hty : d.type = (s.din i).type) (hsz : d.size = (s.din i).size) (b : ℕ) :
    Ok sb t L H (((s.setDin i d).setDinode j d).log b) ∧
      (((s.setDin i d).setDinode j d).log b).disk.file sb =
        update (s.disk.file sb) j
          (some { s.disk.toNode j with major := d.major, minor := d.minor, nlink := d.nlink }) := by
  have hd := h.din hm hi
  have hlive := h.live hm (h.valid hi)
  have ht : State.Touches i s (((s.setDin i d).setDinode j d).log b) := by
    have ht' := (s.touches_setDin i d).comp ((s.setDin i d).touches_iupdate i b)
    rwa [(s.touches_setDin i d).inum, h.inum _ _ hm, State.din_setDin] at ht'
  have hdisk : (((s.setDin i d).setDinode j d).log b).disk = s.disk.setNode j d := rfl
  rw [hd] at ha hty hsz
  have hkeep := h.sound.owned.keep_setNode hty ha
  have hnode : (s.disk.setNode j d).node j = d := update_self _ _ _
  have hcontent : (s.disk.setNode j d).content j = s.disk.content j := by
    refine View.content_congr (by rw [hnode, hsz]) fun o _ => View.byte_setNode ha j o
  refine ⟨h.touches hm hi ht ?_ ?_ ?_, ?_⟩
  · show update s.dinode j d j = _
    rw [update_self]
    exact (State.din_setDin s i d).symm
  · show ((s.setDin i d).din i).type ≠ _
    rw [State.din_setDin, hty]
    exact hlive.2
  · rw [hdisk]
    refine hkeep.sound h.sound hlive fun bn hbn => ?_
    rw [hnode, hsz] at hbn
    have := h.sound.noHole j hlive bn hbn
    refine ⟨this.1, ?_⟩
    show (s.disk.setNode j d).slot j bn ≠ 0
    rw [View.slot_setNode ha]
    exact this.2
  · rw [hdisk]
    refine View.file_eq_update hkeep.node (fun l hl hlv => hkeep.content hl hlv (h.sound.noHole l hlv)) ?_
    rw [View.file_of_live (by rwa [hkeep.live]), View.toNode, hnode, hcontent, hty]
    rfl

theorem Writes.ok {off n off' : ℕ} (h : Ok sb true L H s) (hm : (i, j) ∈ H) (hi : i ∈ L) (hn : 0 < n)
    (hoff : off ≤ (s.din i).size) (hmax : off + n ≤ maxfile * bsize) (hw : Writes sb i src off n s off' s') :
    Ok sb true L H s' ∧ s'.disk.file sb =
      update (s.disk.file sb) j (some { s.disk.toNode j with content := s'.disk.content j }) := by
  have hwr := h.writable hm hi
  have hlive := h.live hm (h.valid hi)
  have hd := h.din hm hi
  have hsaved : s'.dinode j = s'.din i := by
    have := hw.saved hn
    rwa [h.inum _ _ hm] at this
  have hview := h.view_touches hm hi hw.touches hsaved
  have hv := hw.view
  rw [hview, h.view_eq, h.inum _ _ hm] at hv
  have hsize := hw.size hwr.has
  rw [hview, h.view_eq, h.inum _ _ hm] at hsize
  rw [hd] at hoff
  have hhole := hv.noHole hlive hsize hoff hmax (h.sound.noHole j hlive)
  have hsound := hv.toKeep.sound h.sound hlive hhole
  have htype : (s'.din i).type = (s.disk.node j).type := by rw [hw.din, hd]
  refine ⟨h.touches hm hi hw.touches hsaved ?_ hsound, ?_⟩
  · rw [htype]
    exact hlive.2
  · refine View.file_eq_update hv.toKeep.node (fun l hl hlv => hv.toKeep.content hl hlv (h.sound.noHole l hlv)) ?_
    rw [View.file_of_live (by rwa [hv.toKeep.live]), View.toNode]
    have hnode : s'.disk.node j = s'.din i := hsaved
    rw [hnode, hw.din, hd]
    rfl

theorem wp_writei_kernel {E : Halt → Prop} {Q : ℤ → State → Prop} {data : Bytes} {off n : ℕ} (h : Ok sb true L H s)
    (hm : (i, j) ∈ H) (hi : i ∈ L) (hn : 0 < n) (hoff : off ≤ (s.din i).size) (hmax : off + n ≤ maxfile * bsize)
    (hE : E (.panic .ballocOutOfBlocks))
    (hQ : ∀ s', Keeps H s s' → Ok sb true L H s' → s'.disk.file sb = update (s.disk.file sb) j
      (some { s.disk.toNode j with content := overwrite (s.disk.content j) off ((List.range n).map data) }) → Q n s') :
    Wp E (writei sb i (.kernel data) off n) s Q := by
  have hm' : maxfile * bsize = 274432 := rfl
  have hwr := h.writable hm hi
  refine (wp_writei hwr h.trans (by omega) hoff hmax).imp (fun e he => he.1 ▸ hE) fun r s' hr => ?_
  obtain ⟨rfl, off', hw⟩ := hr
  obtain ⟨hok, hfile⟩ := hw.ok h hm hi hn hoff hmax
  -- a kernel address can be read
  obtain rfl : off' = off + n := by
    have h₁ := hw.view.le_add
    by_contra hne
    obtain ⟨k, -, hk⟩ := hw.view.fault (by omega)
    simp [Src.byte] at hk
  have hv := hw.view
  have hsize := hw.size hwr.has
  rw [hok.view_eq, h.view_eq, h.inum _ _ hm] at hv hsize
  rw [h.din hm hi] at hoff
  have hcontent := hv.content (f := data) hsize (fun _ _ => rfl) hoff (h.sound.noHole j (h.live hm (h.valid hi)))
  rw [hcontent] at hfile
  exact hQ s' hw.touches.keeps hok hfile

theorem wp_writei_any {E : Halt → Prop} {Q : ℤ → State → Prop} {off n : ℕ} (h : Ok sb true L H s) (hm : (i, j) ∈ H)
    (hi : i ∈ L) (hn : 0 < n) (hn' : n < 2 ^ 32) (hE : E (.panic .ballocOutOfBlocks))
    (hsame : Q (-1) s)
    (hQ : ∀ s' c, Keeps H s s' → Ok sb true L H s' → s'.disk.file sb = update (s.disk.file sb) j
      (some { s.disk.toNode j with content := c }) → Q n s') : Wp E (writei sb i src off n) s Q := by
  have hm' : maxfile * bsize = 274432 := rfl
  by_cases hbad : (s.din i).size < off ∨ 2 ^ 32 ≤ off + n ∨ maxfile * bsize < off + n
  · exact (wp_of_eq_ok (writei_refused hn' hbad)).mpr hsame
  · refine (wp_writei (h.writable hm hi) h.trans hn' (by omega) (by omega)).imp (fun e he => he.1 ▸ hE) fun r s' hr => ?_
    obtain ⟨rfl, off', hw⟩ := hr
    obtain ⟨hok, hfile⟩ := hw.ok h hm hi hn (by omega) (by omega)
    exact hQ s' _ hw.touches.keeps hok hfile

theorem wp_readi_kernel {E : Halt → Prop} {Q : ℕ × Bytes → State → Prop} {off n : ℕ} {mem : Bytes} (h : Ok sb t L H s)
    (hm : (i, j) ∈ H) (hi : i ∈ L) (hlt : off + n < 2 ^ 32)
    (hQ : ∀ mem', (List.range (((s.disk.content j).drop off).take n).length).map mem' =
        ((s.disk.content j).drop off).take n → (∀ x, n ≤ x → mem' x = mem x) →
      Q ((((s.disk.content j).drop off).take n).length, mem') s) : Wp E (readi sb i .kernel mem off n) s Q := by
  have hh : s.view.NoHole (s.inode i).inum := by
    rw [h.view_eq, h.inum _ _ hm]
    exact h.sound.noHole j (h.live hm (h.valid hi))
  obtain ⟨mem', hr, hbytes, hrest⟩ := @readi_eq sb s i off n (h.has hm hi) hh hlt mem
  rw [h.view_eq, h.inum _ _ hm] at hr hbytes hrest
  refine (wp_of_eq_ok hr).mpr (hQ mem' hbytes fun x hx => hrest x ?_)
  rw [List.length_take]
  omega

theorem Truncates.ok (h : Ok sb true L H s) (hm : (i, j) ∈ H) (hi : i ∈ L) (ht : Truncates sb i s s') :
    Ok sb true L H s' ∧ s'.disk.file sb =
      update (s.disk.file sb) j (some { s.disk.toNode j with content := [] }) := by
  have hwr := h.writable hm hi
  have hlive := h.live hm (h.valid hi)
  have hd := h.din hm hi
  have hsaved : s'.dinode j = s'.din i := by
    have := ht.saved
    rwa [h.inum _ _ hm] at this
  have hnode : ∀ l, l ≠ j → s'.disk.node l = s.disk.node l := fun l hl =>
    ht.touches.dinode l (by rwa [h.inum _ _ hm])
  have hview := h.view_touches hm hi ht.touches hsaved
  have hslot : ∀ l, l ≠ j → ∀ k, s'.disk.slot l k = s.disk.slot l k := by
    intro l hl k
    have := ht.slot_other hwr.has (by rwa [h.inum _ _ hm]) k
    rwa [hview, h.view_eq] at this
  have htype : ∀ l, (s'.disk.node l).type = (s.disk.node l).type := by
    intro l
    have := ht.type hwr.has l
    rwa [hview, h.view_eq] at this
  have hlv := View.live_congr sb htype
  have hfreed := ht.freed
  unfold Freed at hfreed
  rw [h.view_eq, h.inum _ _ hm] at hfreed
  have hsize : (s'.disk.node j).size = 0 := by
    show (s'.dinode j).size = 0
    rw [hsaved, ht.din]
  have howned := ht.owned hwr
  rw [hview] at howned
  have hsound : s'.disk.Sound sb := by
    refine ⟨howned, fun b hb hlt hbit => ?_, fun l hl => ?_⟩
    · have hpos : 0 < sb.nmeta := Nat.succ_pos _
      obtain ⟨hold, hnone⟩ := (hfreed b).mp hbit
      obtain ⟨l, k, hl, hk, rfl⟩ := h.sound.exact b hb hlt hold
      have hne : l ≠ j := by
        rintro rfl
        have := hnone k (by omega) rfl
        omega
      exact ⟨l, k, by rwa [hlv], hk, hslot l hne k⟩
    · rw [hlv] at hl
      by_cases hlj : l = j
      · subst hlj
        intro bn hbn
        rw [hsize] at hbn
        exact absurd hbn (Nat.not_lt_zero _)
      · intro bn hbn
        rw [hnode l hlj] at hbn
        have := h.sound.noHole l hl bn hbn
        refine ⟨this.1, ?_⟩
        show s'.disk.slot l bn ≠ 0
        rw [hslot l hlj]
        exact this.2
  refine ⟨h.touches hm hi ht.touches hsaved ?_ hsound, ?_⟩
  · rw [ht.din, hd]
    exact hlive.2
  · refine View.file_eq_update hnode (fun l hl _ => ?_) ?_
    · refine View.content_congr (by rw [hnode l hl]) fun o _ => ?_
      rw [View.byte_eq, View.byte_eq, hslot l hl]
      show s'.data _ _ = _
      rw [ht.data]
      rfl
    · have hcontent : s'.disk.content j = [] := by
        unfold View.content
        rw [hsize]
        rfl
      have hn : s'.disk.node j = s'.din i := hsaved
      rw [View.file_of_live (by rwa [hlv]), View.toNode, hcontent, hn, ht.din, hd]
      rfl

theorem wp_itrunc_ok {E : Halt → Prop} {Q : PUnit → State → Prop} (h : Ok sb true L H s) (hm : (i, j) ∈ H) (hi : i ∈ L)
    (hQ : ∀ s', Keeps H s s' → Ok sb true L H s' → s'.disk.file sb =
      update (s.disk.file sb) j (some { s.disk.toNode j with content := [] }) → Q ⟨⟩ s') :
    Wp E (itrunc sb i) s Q := by
  refine (wp_itrunc (h.writable hm hi) h.trans).mono fun _ s' ht => ?_
  obtain ⟨hok, hfile⟩ := ht.ok h hm hi
  exact hQ s' ht.touches.keeps hok hfile

theorem wp_iupdate_ok {E : Halt → Prop} {Q : PUnit → State → Prop} {d : Dinode} (h : Ok sb true L H s)
    (hm : (i, j) ∈ H) (hi : i ∈ L) (ha : d.addrs = (s.din i).addrs) (hty : d.type = (s.din i).type)
    (hsz : d.size = (s.din i).size)
    (hQ : ∀ s', s'.disk = s.disk.setNode j d → Keeps H s s' → Ok sb true L H s' →
      s'.disk.file sb = update (s.disk.file sb) j
        (some { s.disk.toNode j with major := d.major, minor := d.minor, nlink := d.nlink }) → Q ⟨⟩ s') :
    Wp E (iupdate sb i) (s.setDin i d) Q := by
  rw [wp_iupdate (by exact h.trans), (s.touches_setDin i d).inum, h.inum _ _ hm, State.din_setDin]
  obtain ⟨hok, hfile⟩ := h.setDin hm hi ha hty hsz (sb.iblock j)
  exact hQ _ rfl (.setInode fun hv => hv) hok hfile

/-- A free inode becomes an empty file. -/
theorem Ok.alloc (h : Ok sb t L H s) (hj : j < sb.ninodes) (hfree : (s.disk.node j).type = .free) {type : FileType}
    (hty : type ≠ .free) (b : ℕ) :
    Ok sb t L H ((s.setDinode j { Dinode.zero with type := type }).log b) ∧
      ((s.setDinode j { Dinode.zero with type := type }).log b).disk.file sb = update (s.disk.file sb) j
        (some { type := type, major := 0, minor := 0, nlink := 0, content := [] }) := by
  set s' := (s.setDinode j { Dinode.zero with type := type }).log b with hs'
  have hself : s'.disk.node j = { Dinode.zero with type := type } := update_self _ _ _
  have hnode : ∀ l, l ≠ j → s'.disk.node l = s.disk.node l := fun l hl => update_of_ne hl _ _
  have hlive : ∀ l, s'.disk.Live sb l → l = j ∨ l ≠ j ∧ s.disk.Live sb l := by
    intro l hl
    by_cases hlj : l = j
    · exact .inl hlj
    · exact .inr ⟨hlj, hl.1, hnode l hlj ▸ hl.2⟩
  have hlive' : ∀ l, s.disk.Live sb l → l ≠ j ∧ s'.disk.Live sb l := by
    intro l hl
    have hlj : l ≠ j := by
      rintro rfl
      exact hl.2 hfree
    exact ⟨hlj, hl.1, (hnode l hlj).symm ▸ hl.2⟩
  have hslot : ∀ l, l ≠ j → ∀ k, s'.disk.slot l k = s.disk.slot l k := by
    intro l hl k
    unfold View.slot
    rw [hnode l hl]
    rfl
  have hzero : ∀ k ≤ maxfile, s'.disk.slot j k = 0 := by
    intro k hk
    unfold View.slot
    rw [hself]
    rcases Dinode.slot_cases hk with hlt | ⟨e, he, rfl⟩ | rfl
    · rw [Dinode.slot_direct _ _ hlt]
      rfl
    · rw [Dinode.slot_entry_of_zero he rfl]
    · rw [Dinode.slot_ind]
      rfl
  have hold : ∀ l k, s'.disk.Live sb l → k ≤ maxfile → s'.disk.slot l k ≠ 0 →
      s.disk.Live sb l ∧ s'.disk.slot l k = s.disk.slot l k := by
    intro l k hl hk h0
    rcases hlive l hl with rfl | ⟨hne, hl⟩
    · exact absurd (hzero k hk) h0
    · exact ⟨hl, hslot l hne k⟩
  have hsound : s'.disk.Sound sb := by
    refine ⟨⟨h.sound.owned.metadata, fun l k hl hk h0 => ?_, fun l k l' k' hl hl' hk hk' h0 heq => ?_⟩,
      fun a ha hlt hbit => ?_, fun l hl => ?_⟩
    · obtain ⟨hl, hs⟩ := hold l k hl hk h0
      rw [hs] at h0 ⊢
      exact h.sound.owned.used l k hl hk h0
    · obtain ⟨hl, hs⟩ := hold l k hl hk h0
      obtain ⟨hl', hs'⟩ := hold l' k' hl' hk' (heq ▸ h0)
      rw [hs] at h0 heq
      rw [hs'] at heq
      exact h.sound.owned.inj l k l' k' hl hl' hk hk' h0 heq
    · obtain ⟨l, k, hl, hk, rfl⟩ := h.sound.exact a ha hlt hbit
      obtain ⟨hne, hl'⟩ := hlive' l hl
      exact ⟨l, k, hl', hk, hslot l hne k⟩
    · rcases hlive l hl with rfl | ⟨hne, hl⟩
      · intro bn hbn
        rw [hself] at hbn
        exact absurd hbn (Nat.not_lt_zero _)
      · unfold View.NoHole
        rw [hnode l hne]
        exact h.sound.noHole l hl
  refine ⟨⟨h.trans, h.ref, h.inum, h.unique, fun k l hl hv => ?_, h.locked, h.held, hsound⟩, ?_⟩
  · -- an entry that has been read is not free
    have hne : l ≠ j := by
      rintro rfl
      exact (h.live hl hv).2 hfree
    obtain ⟨hs, hlv⟩ := h.saved k l hl hv
    exact ⟨(hnode l hne).trans hs, (hlive' l hlv).2⟩
  · refine View.file_eq_update hnode (fun l hl _ => ?_) ?_
    · unfold View.content View.byte
      rw [hnode l hl]
      rfl
    · have hl : s'.disk.Live sb j := by
        refine ⟨hj, ?_⟩
        rw [hself]
        exact hty
      rw [View.file_of_live hl]
      unfold View.toNode View.content
      rw [hself]
      rfl

theorem wp_ialloc_ok {E : Halt → Prop} {Q : Fin ninode → State → Prop} {type : FileType} (h : Ok sb true L H s)
    (hty : type ≠ .free) (hE : E (.panic .iallocNoInodes)) (hE' : E (.panic .igetNoInodes))
    (hQ : ∀ i j s', 0 < j → j < sb.ninodes → s.disk.file sb j = none → Keeps H s s' → Ok sb true L ((i, j) ::ₘ H) s' →
      s'.disk.file sb = update (s.disk.file sb) j
        (some { type := type, major := 0, minor := 0, nlink := 0, content := [] }) → Q i s') :
    Wp E (ialloc sb type) s Q := by
  unfold ialloc
  rw [wp_bind, wp_get]
  cases hf : (List.range' 1 (sb.ninodes - 1)).find? fun inum => (s.dinode inum).type = .free with
  | none =>
    rw [wp_throw]
    exact hE
  | some j =>
    have hmem := List.mem_of_find?_eq_some hf
    rw [List.mem_range'_1] at hmem
    have hfree : (s.dinode j).type = .free := by simpa using List.find?_some hf
    dsimp only
    rw [wp_bind, wp_set, wp_bind, wp_logWrite (by exact h.trans)]
    obtain ⟨hok, hfile⟩ := h.alloc (by omega) hfree hty (sb.iblock j)
    refine wp_iget hok (fun _ => hE') fun i s' hd _ hkeep hok' => ?_
    refine hQ i j s' (by omega) (by omega) (View.file_eq_none.mpr fun hl => hl.2 hfree) hkeep hok' ?_
    rw [hd, hfile]

end

end Xv6.Fs
