import Xv6.Kernel.Proc.Stack

/-! `exec` builds an address space from a file, or gives every page back. -/
namespace Xv6.Vm
open Lib

variable {t : Pagetable} {m : Mem} {E : Halt → Prop}

/-- The rights of a page that user code may touch. -/
def userAccess (perm : Perm) : Prop := perm.u = true

theorem walkaddr_of_look {v : ℕ} (hv : v < 2 ^ 26) {pa : Page} {perm : Perm}
    (h : look t v = some ⟨.page pa, perm⟩) (hu : perm.u = true) :
    walkaddr t (v * pgsize) = some (.page pa) := by
  have hpte : t.pte (v * pgsize) = some ⟨.page pa, perm⟩ := h
  unfold walkaddr
  rw [if_neg (not_le.mpr (mul_lt_maxva hv))]
  simp [hpte, hu]

theorem Exe.readi_eq_self {ip : Exe} {off n : ℕ} (hn : 0 < n) (h : ip.readi off n = n) : off + n ≤ ip.size ∧ off + n < 2 ^ 32 := by
  unfold Exe.readi at h
  split_ifs at h with hout hcut
  · omega
  · omega
  · omega

/-- What `loadseg` leaves when it returns 0: the bytes from `offset` on are at `va`. -/
def Loaded (t : Pagetable) (m : Mem) (ip : Exe) (va offset sz : ℕ) (m' : Mem) : Prop :=
  (0 < sz → offset + sz ≤ ip.size) ∧ userMem t m' = (userMem t m).blit va sz fun k => ip.data (offset + k)

theorem accessible_of_space {n a : ℕ} (h : Space userAccess t n tops) (ha : a / pgsize < n) : Accessible t a := by
  obtain ⟨pa, perm, hl, hu⟩ := h.page _ ha
  have hle := lt_of_lt_of_le ha h.le
  rw [userPages_eq] at hle
  refine accessible_of_look ?_ hl hu
  unfold maxva
  unfold pgsize at hle
  omega

theorem userMem_writePage {n v c : ℕ} {pa : Page} {perm : Perm} (h : Space userAccess t n tops) (hd : Distinct t) (hv : v < n)
    (hl : look t v = some ⟨.page pa, perm⟩) (hu : perm.u = true) (hc : c ≤ pgsize) (src : Bytes) :
    userMem t (m.write (.page pa) ((m.data (.page pa)).blit 0 c src)) = (userMem t m).blit (v * pgsize) c src := by
  have hle := h.le
  rw [userPages_eq] at hle
  have hround : pgRoundDown (v * pgsize) = v * pgsize := by
    unfold pgRoundDown
    rw [Nat.mul_div_cancel _ (by decide)]
  have hw : walkaddr t (pgRoundDown (v * pgsize)) = some (.page pa) := by
    rw [hround]
    exact walkaddr_of_look (by omega) hl hu
  have hmod : v * pgsize % pgsize = 0 := Nat.mul_mod_left _ _
  have hpage := Mem.storeBytes_page hw (n := c) (by omega) m src
  rw [hmod] at hpage
  rw [← hpage]
  refine userMem_storeBytes hd (fun i hi => accessible_of_space h ?_) src
  unfold pgsize at *
  omega

theorem turns_succ {sz i fuel : ℕ} (h : fuel + 1 = (sz - i + pgsize - 1) / pgsize) :
    fuel = (sz - (i + pgsize) + pgsize - 1) / pgsize ∧ i < sz ∧ (0 < fuel → i + pgsize < sz) := by
  unfold pgsize at *
  omega

/-- `loadseg` finds the pages that `uvmalloc` has mapped for the segment. -/
theorem wp_loadsegLoop {n v k : ℕ} (fuel sz : ℕ) (h : Space userAccess t n tops) (hn : v + k + fuel ≤ n)
    (ip : Exe) (offset : ℕ) :
    Wp E (loadsegLoop t (v * pgsize) ip offset sz fuel (k * pgsize)) m fun ok m' =>
      (Mem.Moves (holdings t) (holdings t) m m' ∧ ∀ j, m.Enough j → m'.Enough j) ∧
      (Distinct t → fuel = (sz - k * pgsize + pgsize - 1) / pgsize → (0 < fuel → offset + k * pgsize < 2 ^ 32) → ok = true →
        Loaded t m ip ((v + k) * pgsize) (offset + k * pgsize) (sz - k * pgsize) m') := by
  have hpg : pgsize = 4096 := rfl
  induction fuel generalizing k m with
  | zero =>
    rw [loadsegLoop, wp_pure]
    refine ⟨⟨.refl _ m, fun _ hj => hj⟩, fun _ hfuel _ _ => ?_⟩
    have hend : sz - k * pgsize = 0 := by
      rw [hpg] at hfuel ⊢
      omega
    rw [hend]
    exact ⟨by omega, (Bytes.blit_zero _ _ _).symm⟩
  | succ fuel ih =>
    have hle := h.le
    have hup := userPages_eq
    obtain ⟨pa, perm, hl, hu⟩ := h.page (v + k) (by omega)
    have hpa : pa ∈ holdings t := Multiset.mem_add.mpr (.inr (mem_user (by omega) hl))
    unfold loadsegLoop readiPage
    rw [← Nat.add_mul]
    simp only [walkaddr_of_look (by omega) hl hu, wp_bind, wp_modify, wp_pure]
    generalize hcount : (if sz - k * pgsize < pgsize then sz - k * pgsize else pgsize) = c
    split_ifs with hshort
    · rw [wp_pure]
      exact ⟨⟨Mem.moves_write hpa _, fun _ hj => hj⟩, by simp⟩
    · rw [← Nat.add_one_mul]
      refine (ih (by omega)).mono ?_
      rintro ok m' ⟨⟨hm, henough⟩, hloaded⟩
      refine ⟨⟨Mem.Moves.trans (Mem.moves_write hpa _) hm, fun j hj => henough j hj⟩, fun hd hfuel hoff hok => ?_⟩
      have hoff := hoff (Nat.succ_pos _)
      have hread : ip.readi (offset + k * pgsize) c = c := by
        rw [Nat.mod_eq_of_lt hoff] at hshort
        exact not_not.mp hshort
      obtain ⟨hturns, hi, hmore⟩ := turns_succ hfuel
      have hsucc : (k + 1) * pgsize = k * pgsize + pgsize := Nat.add_one_mul _ _
      rw [hsucc] at hloaded
      have hc : 0 < c ∧ c ≤ pgsize ∧ (c = sz - k * pgsize ∧ sz ≤ k * pgsize + pgsize ∨ c = pgsize ∧ k * pgsize + pgsize ≤ sz) := by
        split_ifs at hcount <;> omega
      obtain ⟨hin, hlt⟩ := Exe.readi_eq_self hc.1 hread
      obtain ⟨hrest, hmem⟩ := hloaded hd hturns (fun hpos => by have := hmore hpos; omega) hok
      rw [Nat.mod_eq_of_lt hoff, hread, userMem_writePage h hd (by omega) hl hu hc.2.1] at hmem
      rcases hc.2.2 with ⟨hclast, hend⟩ | ⟨hfull, hend⟩
      · -- the last page
        rw [show sz - (k * pgsize + pgsize) = 0 by omega, Bytes.blit_zero, hclast] at hmem
        exact ⟨by omega, hmem⟩
      · refine ⟨fun _ => ?_, ?_⟩
        · by_cases hlast : 0 < sz - (k * pgsize + pgsize)
          · have := hrest hlast
            omega
          · omega
        · have haddr : (v + (k + 1)) * pgsize = (v + k) * pgsize + c := by rw [hfull, ← Nat.add_one_mul, Nat.add_assoc]
          have hblit := Bytes.blit_blit (m := c) (n := sz - (k * pgsize + pgsize))
            (f := fun j => ip.data (offset + k * pgsize + j)) (g := fun j => ip.data (offset + (k * pgsize + pgsize) + j))
            (fun _ _ => rfl) (fun j _ => congrArg ip.data (by omega)) (userMem t m) ((v + k) * pgsize)
          rw [hmem, haddr, hblit, show c + (sz - (k * pgsize + pgsize)) = sz - k * pgsize by omega]

theorem wp_loadseg {n va sz : ℕ} (h : Space userAccess t n tops) (hva : va % pgsize = 0)
    (hn : va + sz ≤ n * pgsize) (ip : Exe) (offset : ℕ) :
    Wp E (loadseg t va ip offset sz) m fun ok m' =>
      (Mem.Moves (holdings t) (holdings t) m m' ∧ ∀ j, m.Enough j → m'.Enough j) ∧
      (Distinct t → offset < 2 ^ 32 → ok = true → Loaded t m ip va offset sz m') := by
  have hmul : va = va / pgsize * pgsize := (Nat.div_mul_cancel (Nat.dvd_of_mod_eq_zero hva)).symm
  have hload := wp_loadsegLoop (m := m) (E := E) (v := va / pgsize) (k := 0)
    ((sz + pgsize - 1) / pgsize) sz h (by unfold pgsize at *; omega) ip offset
  rw [Nat.zero_mul, Nat.add_zero, Nat.sub_zero, Nat.add_zero, ← hmul] at hload
  unfold loadseg
  rw [if_neg (by simp [hva])]
  exact hload.mono fun ok m' hr => ⟨hr.1, fun hd hoff => hr.2 hd rfl fun _ => hoff⟩

theorem le_pgs_mul (sz : ℕ) : sz ≤ pgs sz * pgsize := le_of_pgs le_rfl

theorem segment_fits {vaddr memsz filesz sz : ℕ} (hover : vaddr ≤ (vaddr + memsz) % 2 ^ 64)
    (hfile : filesz ≤ memsz) (hmem : memsz < 2 ^ 64) (hsz : (vaddr + memsz) % 2 ^ 64 ≤ sz) :
    vaddr + filesz % 2 ^ 32 ≤ pgs sz * pgsize := by
  have h := le_pgs_mul sz
  omega

theorem memsz_lt (ip : Exe) (off : ℕ) : (ip.proghdr off).memsz < 2 ^ 64 := by
  have h := Bytes.get_lt ip.data (off + 40) 8
  rwa [show (256 : ℕ) ^ 8 = 2 ^ 64 by norm_num] at h

/-- The memory `f` with the segment of a header, as `exec` takes its fields through `uint`. -/
def Exe.overlay (ip : Exe) (f : Bytes) (ph : Proghdr) : Bytes :=
  if ph.type = elfProgLoad then f.blit ph.vaddr (ph.filesz % 2 ^ 32) fun k => ip.data (ph.off % 2 ^ 32 + k) else f

/-- The `n` program headers from `off` on. -/
def Exe.headers (ip : Exe) (off n : ℕ) : List Proghdr := (List.range n).map fun i => ip.proghdr (off + i * sizeofProghdr)

theorem Exe.headers_succ (ip : Exe) (off n : ℕ) :
    ip.headers off (n + 1) = ip.proghdr off :: ip.headers (off + sizeofProghdr) n := by
  unfold Exe.headers
  rw [List.range_succ_eq_map, List.map_cons, List.map_map, Nat.zero_mul, Nat.add_zero]
  refine congrArg _ (List.map_congr_left fun i _ => congrArg ip.proghdr ?_)
  rw [Nat.succ_eq_add_one, Nat.add_one_mul]
  omega

theorem wp_loadSegment (ip : Exe) {ph : Proghdr} {sz : ℕ} (hmem : ph.memsz < 2 ^ 64)
    (h : Space userAccess t (pgs sz) tops) (hb : m.free.length + (holdings t).card < 2 ^ 26) :
    Wp E (loadSegment ip ph t sz) m fun r m' => (Space userAccess r.1 (pgs r.2.1) tops ∧
      Mem.Moves (holdings t) (holdings r.1) m m') ∧ (Apart t m → r.2.2 = true →
        (0 < ph.filesz % 2 ^ 32 → ph.off % 2 ^ 32 + ph.filesz % 2 ^ 32 ≤ ip.size) ∧
        userMem r.1 m' = (userMem t m).blit ph.vaddr (ph.filesz % 2 ^ 32) fun k => ip.data (ph.off % 2 ^ 32 + k)) := by
  unfold loadSegment
  by_cases hfile : ph.memsz < ph.filesz
  · rw [if_pos hfile, wp_pure]
    exact ⟨⟨h, .refl _ m⟩, by simp⟩
  by_cases hover : (ph.vaddr + ph.memsz) % 2 ^ 64 < ph.vaddr
  · rw [if_neg hfile, if_pos hover, wp_pure]
    exact ⟨⟨h, .refl _ m⟩, by simp⟩
  rw [if_neg hfile, if_neg hover, wp_bind]
  refine (h.wp_uvmalloc _ rfl hb).mono ?_
  rintro ⟨t', sz₁⟩ m' ⟨hs, hc, hsz, -, hcontent⟩
  simp only at hs hc hsz hcontent ⊢
  split_ifs at hs ⊢ with hz halign
  · rw [wp_pure]
    exact ⟨⟨hs, hc⟩, by simp⟩
  · rw [wp_pure]
    exact ⟨⟨hs, hc⟩, by simp⟩
  · have hle : (ph.vaddr + ph.memsz) % 2 ^ 64 ≤ sz₁ := by
      rcases hsz with hsz | hsz
      · exact absurd hsz hz
      · exact hsz ▸ le_max_right _ _
    have hfit := segment_fits (not_lt.mp hover) (not_lt.mp hfile) hmem hle
    simp only [wp_bind, wp_pure]
    refine (wp_loadseg hs (not_not.mp halign) hfit _ _).mono ?_
    rintro loaded m'' ⟨⟨hm'', -⟩, hloaded⟩
    refine ⟨⟨hs, hc.trans hm''⟩, fun hap hok => ?_⟩
    obtain ⟨hsame, hzero⟩ := hcontent hap
    obtain ⟨hin, hmem⟩ := hloaded ((hap.moves hc).distinct hs) (Nat.mod_lt _ (by norm_num)) hok
    rw [userMem_grow h hs hsame (hzero hz)] at hmem
    exact ⟨hin, hmem⟩

/-- What the loop over the headers leaves when it does not go to `bad`: the headers and the segments are
in the file, and the segments are in memory, one over the other. -/
structure AllLoaded (ip : Exe) (off n : ℕ) (f f' : Bytes) : Prop where
  headers : ∀ i < n, off + (i + 1) * sizeofProghdr ≤ ip.size
  segments : ∀ ph ∈ ip.headers off n, ph.type = elfProgLoad → 0 < ph.filesz % 2 ^ 32 →
    ph.off % 2 ^ 32 + ph.filesz % 2 ^ 32 ≤ ip.size
  mem : f' = (ip.headers off n).foldl ip.overlay f

theorem AllLoaded.cons {ip : Exe} {off n : ℕ} {f f' : Bytes} (hoff : off + sizeofProghdr ≤ ip.size)
    (hseg : (ip.proghdr off).type = elfProgLoad → 0 < (ip.proghdr off).filesz % 2 ^ 32 →
      (ip.proghdr off).off % 2 ^ 32 + (ip.proghdr off).filesz % 2 ^ 32 ≤ ip.size)
    (h : AllLoaded ip (off + sizeofProghdr) n (ip.overlay f (ip.proghdr off)) f') : AllLoaded ip off (n + 1) f f' where
  headers i hi := by
    cases i with
    | zero => rwa [Nat.zero_add, Nat.one_mul]
    | succ i =>
      have := h.headers i (by omega)
      rw [Nat.add_one_mul (i + 1)]
      omega
  segments ph hph := by
    rw [Exe.headers_succ, List.mem_cons] at hph
    rcases hph with rfl | hph
    · exact hseg
    · exact h.segments ph hph
  mem := by
    rw [Exe.headers_succ, List.foldl_cons]
    exact h.mem

theorem wp_loadLoop (ip : Exe) {n off sz : ℕ} (h : Space userAccess t (pgs sz) tops)
    (hb : m.free.length + (holdings t).card < 2 ^ 26) :
    Wp E (loadLoop ip n off t sz) m fun r m' => (Space userAccess r.1 (pgs r.2.1) tops ∧
      Mem.Moves (holdings t) (holdings r.1) m m') ∧
      (Apart t m → r.2.2 = true → AllLoaded ip off n (userMem t m) (userMem r.1 m')) := by
  induction n generalizing off t sz m with
  | zero =>
    rw [loadLoop, wp_pure]
    exact ⟨⟨h, .refl _ m⟩, fun _ _ => ⟨by omega, fun ph hph => by simp [Exe.headers] at hph, rfl⟩⟩
  | succ n ih =>
    unfold loadLoop
    split_ifs with hread htype
    · rw [wp_pure]
      exact ⟨⟨h, .refl _ m⟩, by simp⟩
    · obtain ⟨hin, hlt⟩ := Exe.readi_eq_self (by decide) (not_not.mp hread)
      rw [Nat.mod_eq_of_lt hlt]
      refine (ih h hb).mono fun r m' hr => ⟨hr.1, fun hap hok => ?_⟩
      refine .cons hin (fun hload => absurd hload htype) ?_
      rw [Exe.overlay, if_neg htype]
      exact hr.2 hap hok
    · obtain ⟨hin, hlt⟩ := Exe.readi_eq_self (by decide) (not_not.mp hread)
      simp only [wp_bind]
      refine (wp_loadSegment ip (memsz_lt ip off) h hb).mono ?_
      rintro ⟨t', sz', loaded⟩ m' ⟨⟨hs, hc⟩, hseg⟩
      simp only at hs hc hseg ⊢
      cases loaded with
      | false =>
        simp only [Bool.not_false, if_true, wp_pure]
        exact ⟨⟨hs, hc⟩, by simp⟩
      | true =>
        have hcard := hc.card
        simp only [Bool.not_true, Bool.false_eq_true, if_false]
        rw [Nat.mod_eq_of_lt hlt]
        refine (ih hs (by omega)).mono ?_
        rintro r m'' ⟨⟨hs'', hc''⟩, hrest⟩
        refine ⟨⟨hs'', hc.trans hc''⟩, fun hap hok => ?_⟩
        obtain ⟨hfile, hmem⟩ := hseg hap rfl
        refine .cons hin (fun _ => hfile) ?_
        rw [Exe.overlay, if_pos (not_not.mp htype), ← hmem]
        exact hrest (hap.moves hc) hok

/-- The stack and its guard page are above what has been loaded. -/
structure StackPages (t : Pagetable) (m : Mem) (t' : Pagetable) (sz : ℕ) (m' : Mem) : Prop where
  size : ∃ n, sz = (n + 2) * pgsize ∧ ∀ a < sz, a / pgsize ≠ n → Accessible t' a
  small : sz ≤ maxva
  distinct : Distinct t'
  mem : userMem t' m' = userMem t m

theorem StackPages.ready {t' : Pagetable} {m' : Mem} {sz : ℕ} (h : StackPages t m t' sz m') {argv : List Str}
    (hshort : ∀ arg ∈ argv, arg.len < pgsize) : Ready t' sz sz argv := by
  obtain ⟨⟨n, hsz, hacc⟩, hsmall, hd, -⟩ := h
  unfold maxva at hsmall
  refine ⟨hd, fun a hlo hhi => hacc a hhi ?_, ?_, ?_, ?_, ?_, le_rfl, hshort⟩
  all_goals unfold pgsize at *
  all_goals omega

theorem wp_stackPages {sz : ℕ} (h : Space userAccess t (pgs sz) tops) (hb : m.free.length + (holdings t).card < 2 ^ 26)
    {Q : Option (Pagetable × ℕ) → Mem → Prop} (hnone : ∀ m' : Mem, Mem.Moves (holdings t) 0 m m' → Q none m')
    (hsome : ∀ t' sz', ∀ m' : Mem, Space (fun _ => True) t' (pgs sz') tops → Mem.Moves (holdings t) (holdings t') m m' →
      sz' ≤ maxva → (Apart t m → StackPages t m t' sz' m') → Q (some (t', sz')) m') :
    Wp E (stackPages t sz) m Q := by
  have hroundUp := pgRoundUp_eq h.le
  have hround : pgs (pgRoundUp sz) = pgs sz := by rw [hroundUp, pgs_mul]
  have hs₁ := h
  rw [← hround] at hs₁
  unfold stackPages
  dsimp only
  rw [wp_bind]
  refine (hs₁.wp_uvmalloc _ rfl hb).mono ?_
  rintro ⟨t₂, sz₁⟩ m₂ ⟨hs₂, hc₂, hsz, -, hgrow⟩
  simp only at hs₂ hc₂ hsz hgrow ⊢
  split_ifs at hs₂ ⊢ with hz
  · simp only [wp_bind, wp_pure]
    refine (wp_procFreepagetable hs₂).mono ?_
    intro _ m₃ hm₃
    exact hnone _ (hc₂.trans hm₃)
  · have hsz : sz₁ = (pgs sz + 2) * pgsize := by
      rcases hsz with hsz | hsz
      · exact absurd hsz hz
      · rw [hsz, hroundUp, max_eq_right (by omega)]
        ring
    have hgrown := hs₂
    rw [hsz, pgs_mul] at hs₂
    have hclear : sz₁ - 2 * pgsize = pgs sz * pgsize := by
      rw [hsz, ← Nat.sub_mul, Nat.add_sub_cancel]
    have hle := hs₂.le
    rw [userPages_eq] at hle
    have hmaxva : sz₁ ≤ maxva := by
      rw [hsz]
      unfold maxva pgsize
      omega
    simp only [wp_bind]
    rw [hclear]
    refine (hs₂.wp_uvmclear (by omega)).mono ?_
    rintro t₃ m₃ ⟨hs₃, hhold₃, rfl, hlook₃, hclosed₃⟩
    rw [← hhold₃] at hc₂
    have hs₃ : Space (fun _ => True) t₃ (pgs sz₁) tops := by rwa [hsz, pgs_mul]
    rw [wp_pure]
    refine hsome t₃ sz₁ m₃ hs₃ hc₂ hmaxva fun hap => ?_
    obtain ⟨hsame, hzero⟩ := hgrow hap
    refine ⟨⟨pgs sz, hsz, fun a ha hne => ?_⟩, hmaxva, (hap.moves hc₂).distinct hs₃, ?_⟩
    · have hdiv : a / pgsize < pgs sz + 2 := Nat.div_lt_of_lt_mul (by rwa [hsz, Nat.mul_comm] at ha)
      obtain ⟨q, perm, hl, hu⟩ := hs₂.page _ hdiv
      have hmax : a < maxva := lt_of_lt_of_le ha hmaxva
      exact accessible_of_look hmax ((hlook₃ _ (div_lt_vpns hmax) hne).trans hl) hu
    · rw [← userMem_grow hs₁ hgrown hsame (hzero hz)]
      refine userMem_clear hlook₃ hclosed₃ fun a ha => ?_
      rw [userMem_grow hs₁ hgrown hsame (hzero hz)]
      exact userMem_above hs₁ (by rw [hround]; omega)

/-- The arguments are on the stack. -/
structure BuiltStack (argv : List Str) (t : Pagetable) (m : Mem) (t' : Pagetable) (sz argc sp : ℕ) (m' : Mem) : Prop where
  size : ∃ n, sz = (n + 2) * pgsize ∧ ∀ a < sz, a / pgsize ≠ n → Accessible t' a
  small : sz ≤ maxva
  fits : stackSize argv ≤ pgsize
  argc : argc = argv.length
  sp : sp = sz - stackSize argv
  mem : userMem t' m' = withStack (userMem t m) sz argv

theorem wp_buildStack {sz : ℕ} (h : Space userAccess t (pgs sz) tops) (argv : List Str)
    (hb : m.free.length + (holdings t).card < 2 ^ 26) {Q : Option (Pagetable × ℕ × ℕ × ℕ) → Mem → Prop}
    (hnone : ∀ m' : Mem, Mem.Moves (holdings t) 0 m m' → Q none m')
    (hsome : ∀ t' sz' argc sp, ∀ m' : Mem, Space (fun _ => True) t' (pgs sz') tops →
      Mem.Moves (holdings t) (holdings t') m m' → (Apart t m → BuiltStack argv t m t' sz' argc sp m') →
      Q (some (t', sz', argc, sp)) m') :
    Wp E (buildStack t sz argv) m Q := by
  unfold buildStack
  rw [wp_bind]
  refine wp_stackPages h hb (fun m' hm => (wp_pure _).mpr (hnone m' hm)) fun t₃ sz₁ m₃ hs₃ hc₃ hmaxva hpages => ?_
  dsimp only
  rw [wp_bind]
  refine ((wp_pushStack hs₃ sz₁ argv).and (wp_pushStack_short hmaxva)).mono ?_
  rintro r m₄ ⟨⟨hm₄, hstack⟩, hshort⟩
  have hc₄ := hc₃.trans hm₄
  cases r with
  | none =>
    simp only [wp_bind, wp_pure]
    refine (wp_procFreepagetable hs₃).mono ?_
    intro _ m₅ hm₅
    exact hnone _ (hc₄.trans hm₅)
  | some r =>
    obtain ⟨argc, sp⟩ := r
    rw [wp_pure]
    refine hsome _ _ _ _ _ hs₃ hc₄ fun hap => ?_
    have hp := hpages hap
    obtain ⟨hfits, hargc, hsp, hfinal⟩ := (hstack (hp.ready (hshort (Option.some_ne_none _)))).pushed _ _ rfl
    rw [hp.mem] at hfinal
    exact ⟨hp.size, hp.small, hfits, hargc, hsp, hfinal⟩

theorem wp_loadImage (pa : Page) (ip : Exe) (argv : List Str) (hb : m.free.length < 2 ^ 26)
    {Q : Option (Pagetable × ℕ × ℕ × ℕ) → Mem → Prop}
    (hnone : ∀ m' : Mem, Mem.Moves 0 0 m m' → Q none m')
    (hsome : ∀ t sz argc sp, ∀ m' : Mem, Space (fun _ => True) t (pgs sz) tops →
      Mem.Moves 0 (holdings t) m m' → Q (some (t, sz, argc, sp)) m') :
    Wp E (loadImage pa ip argv) m Q := by
  have hcard : ∀ {m' : Mem} {t : Pagetable}, Mem.Moves 0 (holdings t) m m' →
      m'.free.length + (holdings t).card < 2 ^ 26 := by
    intro m' t hc
    have := hc.card
    rw [Multiset.card_zero] at this
    omega
  unfold loadImage
  rw [wp_bind]
  refine wp_procPagetable userAccess pa ?_ ?_
  · intro m' hm' _
    rw [wp_pure]
    exact hnone _ hm'
  · intro t₀ m₀ hs₀ hc₀ _
    simp only [wp_bind]
    refine (wp_loadLoop ip hs₀ (hcard hc₀)).mono ?_
    rintro ⟨t₁, sz, loaded⟩ m₁ ⟨⟨hs₁, hc₁⟩, -⟩
    simp only at hs₁ hc₁ ⊢
    have hc₁ := hc₀.trans hc₁
    cases loaded with
    | false =>
      simp only [Bool.not_false, if_true, wp_bind, wp_pure]
      refine (wp_procFreepagetable hs₁).mono ?_
      intro _ m₂ hm₂
      exact hnone _ (hc₁.trans hm₂)
    | true =>
      simp only [Bool.not_true, Bool.false_eq_true, if_false]
      exact wp_buildStack hs₁ argv (hcard hc₁) (fun m₂ hm₂ => hnone m₂ (hc₁.trans hm₂))
        fun t sz argc sp m₂ hs₂ hm₂ _ => hsome t sz argc sp m₂ hs₂ (hc₁.trans hm₂)

end Xv6.Vm
