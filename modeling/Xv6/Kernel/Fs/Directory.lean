import Xv6.Kernel.Fs.Dir
import Xv6.Kernel.Fs.Files
import Xv6.Lib.SlotMap

/-! A directory is a finite map from names to inode numbers, kept in the slots of its file. -/
namespace Xv6.Fs
open Lib SlotMap Function

/-- The first `DIRSIZ` bytes of a name, up to the NUL. -/
abbrev Key := List UInt8

def keyOf (name : Bytes) : Key := strn name dirsiz

def Dirent.entry (de : Dirent) : Option (Key × ℕ) := if de.inum = 0 then none else some (keyOf de.name, de.inum)

/-- The bytes of slot `n`. -/
def direntAt (c : List UInt8) (n : ℕ) : Bytes := fun k => if k < direntSize then c.getD (direntSize * n + k) 0 else 0

/-- The entries of a directory with the bytes `c`. -/
def slots (c : List UInt8) : List (Option (Key × ℕ)) :=
  (List.range (c.length / direntSize)).map fun n => (Dirent.decode (direntAt c n)).entry

theorem length_slots (c : List UInt8) : (slots c).length = c.length / direntSize := by
  rw [slots, List.length_map, List.length_range]

theorem getElem?_slots {c : List UInt8} {n : ℕ} (h : n < c.length / direntSize) :
    (slots c)[n]? = some (Dirent.decode (direntAt c n)).entry := by
  rw [slots, List.getElem?_map, List.getElem?_range h]
  rfl

theorem drop_slots {c : List UInt8} {n : ℕ} (h : n < c.length / direntSize) :
    (slots c).drop n = (Dirent.decode (direntAt c n)).entry :: (slots c).drop (n + 1) := by
  have hlt : n < (slots c).length := by rwa [length_slots]
  rw [List.drop_eq_getElem_cons hlt]
  congr 1
  have := getElem?_slots h
  rwa [List.getElem?_eq_getElem hlt, Option.some.injEq] at this

theorem Dirent.entry_congr {b b' : Bytes} (h : ∀ k < direntSize, b k = b' k) :
    (Dirent.decode b).entry = (Dirent.decode b').entry := by
  have hinum : (Dirent.decode b).inum = (Dirent.decode b').inum :=
    Bytes.get_congr fun k _ hk => h k (hk.trans_le (by decide))
  have hname : keyOf (Dirent.decode b).name = keyOf (Dirent.decode b').name :=
    strn_congr fun k hk => h (2 + k) (Nat.add_lt_add_left hk 2)
  unfold entry
  rw [hname, hinum]

theorem Dirent.entry_encode {de : Dirent} (h : de.inum < 2 ^ 16) : (Dirent.decode de.encode).entry = de.entry := by
  have hinum : (Dirent.decode de.encode).inum = de.inum := by
    refine Bytes.get_of_bytes h fun k hk => ?_
    rw [Nat.zero_add]
    exact if_pos hk
  have hname : (Dirent.decode de.encode).name = de.name := by
    funext k
    show (if 2 + k < 2 then _ else de.name (2 + k - 2)) = _
    rw [if_neg (by omega), Nat.add_sub_cancel_left]
  unfold entry
  rw [hname, hinum]

theorem slots_overwrite {c : List UInt8} {n : ℕ} (hc : direntSize ∣ c.length) (hn : n ≤ c.length / direntSize)
    (b : Bytes) : slots (overwrite c (direntSize * n) ((List.range direntSize).map b)) =
      put (slots c) n (Dirent.decode b).entry := by
  have hd : direntSize = 16 := rfl
  have hlen : (slots c).length = c.length / direntSize := length_slots c
  have hle : direntSize * n ≤ c.length := by
    obtain ⟨m, hm⟩ := hc
    rw [hm, Nat.mul_div_cancel_left m (by decide)] at hn
    rw [hm]
    exact Nat.mul_le_mul_left _ hn
  have hsrc : ((List.range direntSize).map b).length = direntSize := by simp
  have hbytes : ∀ m k, k < direntSize → direntAt (overwrite c (direntSize * n) ((List.range direntSize).map b)) m k =
      if m = n then b k else direntAt c m k := by
    intro m k hk
    unfold direntAt
    rw [if_pos hk, if_pos hk, List.getD_eq_getElem?_getD, List.getD_eq_getElem?_getD, getElem?_overwrite hle, hsrc]
    by_cases hmn : m = n
    · subst hmn
      rw [if_pos rfl, if_pos (by omega), Nat.add_sub_cancel_left, List.getElem?_map, List.getElem?_range hk]
      rfl
    · rw [if_neg hmn, if_neg]
      rw [hd] at hk ⊢
      omega
  have hcount : (overwrite c (direntSize * n) ((List.range direntSize).map b)).length / direntSize =
      (put (slots c) n (Dirent.decode b).entry).length := by
    rw [length_overwrite hle, hsrc, length_put, hlen]
    obtain ⟨m, hm⟩ := hc
    rw [hm] at hn hle ⊢
    rw [hd] at *
    rw [Nat.mul_div_cancel_left m (by decide)] at hn ⊢
    split_ifs <;> omega
  refine List.ext_getElem? fun m => ?_
  by_cases hm : m < (put (slots c) n (Dirent.decode b).entry).length
  · rw [getElem?_slots (by rwa [hcount]), getElem?_put (by rwa [hlen])]
    by_cases hmn : m = n
    · subst hmn
      rw [if_pos rfl, Dirent.entry_congr fun k hk => (hbytes m k hk).trans (if_pos rfl)]
    · rw [if_neg hmn, Dirent.entry_congr fun k hk => (hbytes m k hk).trans (if_neg hmn), getElem?_slots]
      rw [length_put, hlen] at hm
      split_ifs at hm <;> omega
  · rw [List.getElem?_eq_none (by rw [length_slots, hcount]; omega), List.getElem?_eq_none (by omega)]

section
variable {sb : Superblock} {t : Bool} {L : Finset (Fin ninode)} {H : Multiset Handle} {s s' : State}
  {i : Fin ninode} {j : ℕ} {E : Halt → Prop}

theorem Ok.length_le (h : Ok sb t L H s) (hj : s.disk.Live sb j) : (s.disk.content j).length ≤ maxfile * bsize := by
  rw [View.length_content]
  by_contra hlt
  have := (h.sound.noHole j hj maxfile (by omega)).1
  omega

theorem wp_readDirent {Q : Dirent → State → Prop} {n : ℕ} {why : Panic} (h : Ok sb t L H s) (hm : (i, j) ∈ H)
    (hi : i ∈ L) (hc : direntSize ∣ (s.disk.content j).length) (hn : n < (s.disk.content j).length / direntSize)
    (hQ : Q (Dirent.decode (direntAt (s.disk.content j) n)) s) :
    Wp E (readDirent sb i (direntSize * n) why) s Q := by
  have hd : direntSize = 16 := rfl
  have hle := h.length_le (h.live hm (h.valid hi))
  have hmax : maxfile * bsize = 274432 := rfl
  have hend : direntSize * n + direntSize ≤ (s.disk.content j).length := by
    obtain ⟨m, hm⟩ := hc
    rw [hm, Nat.mul_div_cancel_left m (by decide)] at hn
    rw [hm, hd]
    omega
  have hlen : (((s.disk.content j).drop (direntSize * n)).take direntSize).length = direntSize := by
    rw [List.length_take, List.length_drop]
    omega
  unfold readDirent
  rw [wp_bind]
  refine wp_readi_kernel h hm hi (by omega) fun mem hmem hrest => ?_
  rw [hlen] at hmem ⊢
  dsimp only
  rw [if_neg (not_not.mpr rfl), wp_pure]
  have heq : mem = direntAt (s.disk.content j) n := by
    funext k
    unfold direntAt
    split_ifs with hk
    · have := congrArg (·[k]?) hmem
      simp only [List.getElem?_map, List.getElem?_range hk, List.getElem?_take_of_lt hk, List.getElem?_drop] at this
      rw [List.getD_eq_getElem?_getD, ← this]
      rfl
    · exact hrest k (not_lt.mp hk)
  rw [heq]
  exact hQ

theorem entry_eq_some {de : Dirent} {k : Key} {inum : ℕ} (h : de.entry = some (k, inum)) :
    de.inum ≠ 0 ∧ keyOf de.name = k ∧ de.inum = inum := by
  unfold Dirent.entry at h
  split_ifs at h with h0
  obtain ⟨rfl, rfl⟩ := Prod.mk.inj (Option.some.inj h)
  exact ⟨h0, rfl, rfl⟩

theorem wp_dirlookupLoop {Q : Option (Fin ninode × ℕ) → State → Prop} {name : Bytes} {fuel n : ℕ} (h : Ok sb t L H s)
    (hm : (i, j) ∈ H) (hi : i ∈ L) (hc : direntSize ∣ (s.disk.content j).length)
    (hfuel : (s.disk.content j).length / direntSize < fuel + n) (hE : (∀ k, 0 < (s.inode k).ref) → E (.panic .igetNoInodes))
    (hnone : findFrom (keyOf name) n ((slots (s.disk.content j)).drop n) = none → Q none s)
    (hsome : ∀ m inum ip s', findFrom (keyOf name) n ((slots (s.disk.content j)).drop n) = some (m, inum) →
      s'.disk = s.disk → ((s'.inode ip).valid = true → (ip, inum) ∈ H) → Keeps H s s' → Ok sb t L ((ip, inum) ::ₘ H) s' →
      Q (some (ip, direntSize * m)) s') : Wp E (dirlookupLoop sb i name fuel (direntSize * n)) s Q := by
  have hd : direntSize = 16 := rfl
  have hsize : (s.din i).size = (s.disk.content j).length := by rw [h.din hm hi, View.length_content]
  have hlast : (slots (s.disk.content j)).length ≤ n → Q none s := fun hle => by
    refine hnone ?_
    rw [List.drop_eq_nil_of_le hle]
    rfl
  rw [length_slots] at hlast
  induction fuel generalizing n with
  | zero =>
    rw [dirlookupLoop, wp_pure]
    exact hlast (by omega)
  | succ fuel ih =>
    rw [dirlookupLoop, wp_bind, wp_get, hsize]
    by_cases hn : n < (s.disk.content j).length / direntSize
    · have hlt : direntSize * n < (s.disk.content j).length := by
        rw [hd] at hn ⊢
        omega
      rw [if_pos hlt, wp_bind]
      refine wp_readDirent h hm hi hc hn ?_
      have hdrop := drop_slots hn
      set de := Dirent.decode (direntAt (s.disk.content j) n) with hde
      rw [hdrop] at hnone hsome
      by_cases hmatch : de.inum ≠ 0 ∧ namecmp name de.name = 0
      · -- the entry is the one
        have hkey : keyOf de.name = keyOf name := ((strncmp_eq_zero _ _ _).mp hmatch.2).symm
        have hentry : de.entry = some (keyOf name, de.inum) := by rw [Dirent.entry, if_neg hmatch.1, hkey]
        have hfind : findFrom (keyOf name) n (de.entry :: (slots (s.disk.content j)).drop (n + 1)) =
            some (n, de.inum) := by
          rw [hentry]
          exact if_pos rfl
        rw [if_pos hmatch, wp_bind]
        refine wp_iget h hE fun ip s' hdisk hv hkeep hok => ?_
        rw [wp_pure]
        exact hsome n de.inum ip s' hfind hdisk hv hkeep hok
      · have hnext : findFrom (keyOf name) n (de.entry :: (slots (s.disk.content j)).drop (n + 1)) =
            findFrom (keyOf name) (n + 1) ((slots (s.disk.content j)).drop (n + 1)) := by
          cases hent : de.entry with
          | none => rfl
          | some e =>
            obtain ⟨h0, hkey, -⟩ := entry_eq_some hent
            refine if_neg fun hk => hmatch ⟨h0, (strncmp_eq_zero _ _ _).mpr ?_⟩
            exact (hkey.trans hk).symm
        rw [hnext] at hnone hsome
        rw [if_neg hmatch]
        refine ih (by omega) hnone hsome fun hle => hnone ?_
        rw [List.drop_eq_nil_of_le (by rwa [length_slots])]
        rfl
    · have hge : ¬ direntSize * n < (s.disk.content j).length := by
        obtain ⟨m, hm⟩ := hc
        rw [hm, Nat.mul_div_cancel_left m (by decide)] at hn
        rw [hm]
        exact fun hlt => hn (Nat.lt_of_mul_lt_mul_left hlt)
      rw [if_neg hge, wp_pure]
      exact hlast (by omega)

theorem wp_dirlookup {Q : Option (Fin ninode × ℕ) → State → Prop} {name : Bytes} (h : Ok sb t L H s)
    (hm : (i, j) ∈ H) (hi : i ∈ L) (htype : (s.disk.node j).type = .dir) (hc : direntSize ∣ (s.disk.content j).length)
    (hE : (∀ k, 0 < (s.inode k).ref) → E (.panic .igetNoInodes))
    (hnone : find (keyOf name) (slots (s.disk.content j)) = none → Q none s)
    (hsome : ∀ m inum ip s', find (keyOf name) (slots (s.disk.content j)) = some (m, inum) →
      s'.disk = s.disk → ((s'.inode ip).valid = true → (ip, inum) ∈ H) → Keeps H s s' → Ok sb t L ((ip, inum) ::ₘ H) s' →
      Q (some (ip, direntSize * m)) s') : Wp E (dirlookup sb i name) s Q := by
  have hdin := h.din hm hi
  unfold dirlookup
  rw [wp_bind, wp_get, hdin, if_neg (not_not.mpr htype)]
  refine wp_dirlookupLoop (n := 0) h hm hi hc ?_ hE hnone hsome
  rw [View.length_content]
  omega

theorem wp_dirlinkLoop {Q : ℕ → State → Prop} {fuel n : ℕ} (h : Ok sb t L H s) (hm : (i, j) ∈ H) (hi : i ∈ L)
    (hc : direntSize ∣ (s.disk.content j).length) (hfuel : (s.disk.content j).length / direntSize < fuel + n)
    (hn : n ≤ (s.disk.content j).length / direntSize)
    (hQ : Q (direntSize * freeFrom n ((slots (s.disk.content j)).drop n)) s) :
    Wp E (dirlinkLoop sb i fuel (direntSize * n)) s Q := by
  have hd : direntSize = 16 := rfl
  have hsize : (s.din i).size = (s.disk.content j).length := by rw [h.din hm hi, View.length_content]
  induction fuel generalizing n with
  | zero => exact absurd hfuel (by omega)
  | succ fuel ih =>
    rw [dirlinkLoop, wp_bind, wp_get, hsize]
    by_cases hlt : n < (s.disk.content j).length / direntSize
    · have hpos : direntSize * n < (s.disk.content j).length := by
        rw [hd] at hlt ⊢
        omega
      rw [if_pos hpos, wp_bind]
      refine wp_readDirent h hm hi hc hlt ?_
      have hdrop := drop_slots hlt
      set de := Dirent.decode (direntAt (s.disk.content j) n) with hde
      rw [hdrop] at hQ
      by_cases h0 : de.inum = 0
      · rw [if_pos h0, wp_pure]
        have hent : de.entry = none := if_pos h0
        rw [hent] at hQ
        exact hQ
      · rw [if_neg h0]
        have hent : de.entry = some (keyOf de.name, de.inum) := if_neg h0
        rw [hent] at hQ
        exact ih (by omega) (by omega) hQ
    · have hge : ¬ direntSize * n < (s.disk.content j).length := by
        obtain ⟨m, hm⟩ := hc
        rw [hm, Nat.mul_div_cancel_left m (by decide)] at hlt
        rw [hm]
        exact fun hlt' => hlt (Nat.lt_of_mul_lt_mul_left hlt')
      rw [if_neg hge, wp_pure]
      rw [List.drop_eq_nil_of_le (by rw [length_slots]; omega)] at hQ
      exact hQ

theorem wp_writeDirent {Q : PUnit → State → Prop} {n : ℕ} {de : Dirent} {why : Panic} (h : Ok sb true L H s)
    (hm : (i, j) ∈ H) (hi : i ∈ L) (hc : direntSize ∣ (s.disk.content j).length)
    (hn : n ≤ (s.disk.content j).length / direntSize) (hinum : de.inum < 2 ^ 16) (hE : E (.panic .ballocOutOfBlocks))
    (hfull : maxfile * bsize < direntSize * (n + 1) → E (.panic why))
    (hQ : ∀ s' c, Keeps H s s' → Ok sb true L H s' → slots c = put (slots (s.disk.content j)) n de.entry → direntSize ∣ c.length →
      s'.disk.file sb = update (s.disk.file sb) j (some { s.disk.toNode j with content := c }) → Q ⟨⟩ s') :
    Wp E (writeDirent sb i (direntSize * n) de why) s Q := by
  have hd : direntSize = 16 := rfl
  have hmax : maxfile * bsize = 274432 := rfl
  have hsize : (s.din i).size = (s.disk.content j).length := by rw [h.din hm hi, View.length_content]
  have hle := h.length_le (h.live hm (h.valid hi))
  have hoff : direntSize * n ≤ (s.disk.content j).length := by
    rw [hd] at hn ⊢
    omega
  unfold writeDirent
  rw [wp_bind]
  by_cases hroom : direntSize * n + direntSize ≤ maxfile * bsize
  · refine wp_writei_kernel h hm hi (by decide) (by omega) hroom hE fun s' hkeep hok hfile => ?_
    rw [if_neg (not_not.mpr rfl), wp_pure]
    refine hQ s' _ hkeep hok ?_ ?_ hfile
    · rw [slots_overwrite hc hn, Dirent.entry_encode hinum]
    · rw [length_overwrite hoff, List.length_map, List.length_range]
      rcases le_total (s.disk.content j).length (direntSize * n + direntSize) with hmx | hmx
      · rw [max_eq_right hmx]
        exact ⟨n + 1, by rw [Nat.mul_succ]⟩
      · rw [max_eq_left hmx]
        exact hc
  · have hbad : writei sb i (.kernel de.encode) (direntSize * n) direntSize s = .ok (-1, s) :=
      writei_refused (by decide) (by omega)
    rw [wp_of_eq_ok hbad, if_pos (by decide), wp_throw]
    exact hfull (by rw [Nat.mul_succ]; omega)

/-- The entry that `dirlink` writes. -/
def newEntry (name : Bytes) (inum : ℕ) : Option (Key × ℕ) :=
  if inum % 2 ^ 16 = 0 then none else some (keyOf name, inum % 2 ^ 16)

theorem wp_dirlink {Q : ℤ → State → Prop} {name : Bytes} {inum : ℕ} (h : Ok sb true L H s) (hm : (i, j) ∈ H)
    (hi : i ∈ L) (htype : (s.disk.node j).type = .dir) (hc : direntSize ∣ (s.disk.content j).length)
    (hE : E (.panic .igetNoInodes)) (hE' : E (.panic .ballocOutOfBlocks))
    (hfull : find (keyOf name) (slots (s.disk.content j)) = none →
      maxfile * bsize < direntSize * (free (slots (s.disk.content j)) + 1) → E (.panic .dirlink))
    (hbound : ∀ m n s', find (keyOf name) (slots (s.disk.content j)) = some (m, n) → s'.disk = s.disk →
      Keeps H s s' → Ok sb true L H s' → Q (-1) s')
    (hnew : ∀ s' c, find (keyOf name) (slots (s.disk.content j)) = none → Keeps H s s' → Ok sb true L H s' →
      slots c = put (slots (s.disk.content j)) (free (slots (s.disk.content j))) (newEntry name inum) →
      direntSize ∣ c.length →
      s'.disk.file sb = update (s.disk.file sb) j (some { s.disk.toNode j with content := c }) → Q 0 s') :
    Wp E (dirlink sb i name inum) s Q := by
  unfold dirlink
  rw [wp_bind]
  refine wp_dirlookup h hm hi htype hc (fun _ => hE) (fun hfind => ?_) fun m n ip s' hfind hdisk hv hkeep hok => ?_
  · have hsize : (s.din i).size = (s.disk.content j).length := by rw [h.din hm hi, View.length_content]
    dsimp only
    rw [wp_bind, wp_get, hsize, wp_bind]
    refine wp_dirlinkLoop (n := 0) h hm hi hc (by omega) (Nat.zero_le _) ?_
    rw [wp_bind]
    have hle := free_le (slots (s.disk.content j))
    rw [length_slots] at hle
    refine wp_writeDirent h hm hi hc hle (Nat.mod_lt _ (by decide)) hE' (hfull hfind) fun s' c hkeep hok hslots hlen hfile => ?_
    rw [wp_pure]
    refine hnew s' c hfind hkeep hok (hslots.trans ?_) hlen hfile
    have hentry : (Dirent.mk (inum % 2 ^ 16) (strncpy (fun _ => 0) name dirsiz)).entry = newEntry name inum := by
      unfold Dirent.entry newEntry keyOf
      rw [strn_strncpy]
    rw [hentry]
    rfl
  · -- the name is there: the inode that was looked up is put back as it was
    dsimp only
    have hL : ip ∈ L → (ip, n) ∈ H := fun hL => hv (hok.valid hL)
    rw [wp_bind]
    refine wp_iput hok hL fun s₂ hcase hkeep₂ hok₂ => ?_
    rw [wp_pure]
    rcases hcase with ⟨hreap, -⟩ | ⟨-, hdisk₂⟩
    · exact absurd (hv hreap.1) (hreap.2.2 ip)
    · exact hbound m n s₂ hfind (hdisk₂.trans hdisk) (hkeep.trans hkeep₂) hok₂

theorem wp_eraseDirent {Q : PUnit → State → Prop} {n : ℕ} (h : Ok sb true L H s) (hm : (i, j) ∈ H) (hi : i ∈ L)
    (hc : direntSize ∣ (s.disk.content j).length) (hn : n < (s.disk.content j).length / direntSize)
    (hE : E (.panic .ballocOutOfBlocks))
    (hQ : ∀ s' c, Keeps H s s' → Ok sb true L H s' → slots c = (slots (s.disk.content j)).set n none → direntSize ∣ c.length →
      s'.disk.file sb = update (s.disk.file sb) j (some { s.disk.toNode j with content := c }) → Q ⟨⟩ s') :
    Wp E (eraseDirent sb i (direntSize * n)) s Q := by
  have hd : direntSize = 16 := rfl
  have hle := h.length_le (h.live hm (h.valid hi))
  refine wp_writeDirent h hm hi hc hn.le (by decide) hE (fun hfull => ?_) fun s' c hkeep hok hslots hlen hfile => ?_
  · have : direntSize * (n + 1) ≤ (s.disk.content j).length := by
      obtain ⟨m, hm⟩ := hc
      rw [hm, Nat.mul_div_cancel_left m (by decide)] at hn
      rw [hm]
      exact Nat.mul_le_mul_left _ hn
    omega
  · refine hQ s' c hkeep hok (hslots.trans ?_) hlen hfile
    rw [put, length_slots, if_pos hn]
    rfl

end

end Xv6.Fs
