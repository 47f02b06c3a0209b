import Xv6.Kernel.Proc.Image
import Xv6.Kernel.Vm.UserMem

/-! The stack that `exec` builds: the argument strings, below them the array of pointers to them. -/
namespace Xv6.Vm
open Lib

/-- `n`, rounded up to a multiple of 16. -/
def padded (n : ℕ) : ℕ := (n + 15) / 16 * 16

/-- The bytes that the argument strings take on the stack. -/
def argsSize (argv : List Str) : ℕ := (argv.map fun arg => padded (arg.len + 1)).sum

/-- The bytes that the strings and the array of pointers take. -/
def stackSize (argv : List Str) : ℕ := argsSize argv + padded ((argv.length + 1) * 8)

/-- The addresses of the strings below `sp`. -/
def argAddrs (sp : ℕ) : List Str → List ℕ
  | [] => []
  | arg :: argv => (sp - padded (arg.len + 1)) :: argAddrs (sp - padded (arg.len + 1)) argv

/-- The memory `f` with the strings below `sp`. -/
def withArgs (f : Bytes) (sp : ℕ) : List Str → Bytes
  | [] => f
  | arg :: argv => withArgs (f.blit (sp - padded (arg.len + 1)) (arg.len + 1) arg.bytes) (sp - padded (arg.len + 1)) argv

/-- The memory `f` with the strings below `sz`, and the array of pointers below them. -/
def withStack (f : Bytes) (sz : ℕ) (argv : List Str) : Bytes :=
  (withArgs f sz argv).blit (sz - stackSize argv) ((argv.length + 1) * 8) (ustackBytes (argAddrs sz argv))

section
variable {sp n k : ℕ} {argv : List Str} {f : Bytes}

theorem le_padded (n : ℕ) : n ≤ padded n := by
  unfold padded
  omega

theorem padded_mod (n : ℕ) : padded n % 16 = 0 := Nat.mul_mod_left _ _

theorem push_eq (hsp : sp % 16 = 0) (hn : n ≤ sp) (hlt : sp < 2 ^ 64) : push sp n = sp - padded n := by
  unfold push padded
  rw [Nat.mod_eq_of_lt (show n < 2 ^ 64 by omega)]
  have hsub : (sp + (2 ^ 64 - n)) % 2 ^ 64 = sp - n := by omega
  dsimp only
  rw [hsub]
  omega

theorem argsSize_cons (arg : Str) (argv : List Str) : argsSize (arg :: argv) = padded (arg.len + 1) + argsSize argv := by
  simp [argsSize]

theorem argsSize_mod (argv : List Str) : argsSize argv % 16 = 0 := by
  induction argv with
  | nil => rfl
  | cons arg argv ih =>
    have := padded_mod (arg.len + 1)
    rw [argsSize_cons]
    omega

theorem length_le_argsSize (argv : List Str) : argv.length * 16 ≤ argsSize argv := by
  induction argv with
  | nil => exact Nat.le_refl 0
  | cons arg argv ih =>
    have hpad := le_padded (arg.len + 1)
    have hmod := padded_mod (arg.len + 1)
    rw [argsSize_cons, List.length_cons]
    omega

theorem length_argAddrs (sp : ℕ) (argv : List Str) : (argAddrs sp argv).length = argv.length := by
  induction argv generalizing sp with
  | nil => rfl
  | cons arg argv ih => rw [argAddrs, List.length_cons, List.length_cons, ih]

theorem withArgs_frame (hsp : argsSize argv ≤ sp) {a : ℕ} (ha : a < sp - argsSize argv ∨ sp ≤ a) :
    withArgs f sp argv a = f a := by
  induction argv generalizing f sp with
  | nil => rfl
  | cons arg argv ih =>
    rw [argsSize_cons] at hsp ha
    have := le_padded (arg.len + 1)
    rw [withArgs, ih (by omega) (by omega), Bytes.blit, if_neg (by omega)]

theorem argAddrs_spec (hsp : argsSize argv ≤ sp) {i : ℕ} {arg : Str} (hi : argv[i]? = some arg) :
    ∃ a, (argAddrs sp argv)[i]? = some a ∧ sp - argsSize argv ≤ a ∧ a + (arg.len + 1) ≤ sp ∧
      (∀ k ≤ arg.len, withArgs f sp argv (a + k) = arg.bytes k) ∧
      ∀ j arg' a', i < j → argv[j]? = some arg' → (argAddrs sp argv)[j]? = some a' → a' + (arg'.len + 1) ≤ a := by
  induction argv generalizing f sp i arg with
  | nil => simp at hi
  | cons head argv ih =>
    rw [argsSize_cons] at hsp ⊢
    have hpad := le_padded (head.len + 1)
    cases i with
    | zero =>
      obtain rfl : head = arg := by simpa using hi
      refine ⟨sp - padded (head.len + 1), rfl, by omega, by omega, fun k hk => ?_, ?_⟩
      · rw [withArgs, withArgs_frame (by omega) (by omega), Bytes.blit, if_pos (by omega), Nat.add_sub_cancel_left]
      · rintro (_ | j) arg' a' hj harg' ha'
        · omega
        · rw [List.getElem?_cons_succ] at harg'
          rw [argAddrs, List.getElem?_cons_succ] at ha'
          obtain ⟨b, hb, -, hle, -⟩ := ih (f := f) (show argsSize argv ≤ sp - padded (head.len + 1) by omega) harg'
          rw [ha'] at hb
          obtain rfl := Option.some.inj hb
          exact hle
    | succ i =>
      rw [List.getElem?_cons_succ] at hi
      obtain ⟨a, ha, hlow, hhigh, hbytes, hbelow⟩ := ih (f := f.blit (sp - padded (head.len + 1)) (head.len + 1) head.bytes)
        (show argsSize argv ≤ sp - padded (head.len + 1) by omega) hi
      refine ⟨a, ha, by omega, by omega, hbytes, ?_⟩
      rintro (_ | j) arg' a' hj harg' ha'
      · omega
      · exact hbelow j arg' a' (by omega) harg' ha'

end

/-- The stack that a program finds: `argc + 1` words at `sp`, of which the last is 0 and the others
point to copies of the arguments; nothing overlaps, and all of it is in `[base, top)`. -/
structure Stacked (f : Bytes) (base top sp : ℕ) (argv : List Str) : Prop where
  aligned : sp % 16 = 0
  low : base ≤ sp
  high : sp + (argv.length + 1) * 8 ≤ top
  null : f.get (sp + argv.length * 8) 8 = 0
  arg : ∀ i arg, argv[i]? = some arg → let a := f.get (sp + i * 8) 8
    sp + (argv.length + 1) * 8 ≤ a ∧ a + (arg.len + 1) ≤ top ∧ (∀ k ≤ arg.len, f (a + k) = arg.bytes k) ∧
      ∀ j arg', i < j → argv[j]? = some arg' → f.get (sp + j * 8) 8 + (arg'.len + 1) ≤ a

theorem stacked {f : Bytes} {sz : ℕ} {argv : List Str} (hsz : sz % 16 = 0) (hlt : sz < 2 ^ 64) (hfit : stackSize argv ≤ pgsize)
    (hpg : pgsize ≤ sz) : Stacked (withStack f sz argv) (sz - pgsize) sz (sz - stackSize argv) argv := by
  have hsize : stackSize argv = argsSize argv + padded ((argv.length + 1) * 8) := rfl
  have hpad := le_padded ((argv.length + 1) * 8)
  have hmod₁ := argsSize_mod argv
  have hmod₂ := padded_mod ((argv.length + 1) * 8)
  have hlen := length_argAddrs sz argv
  -- a word of the array
  have hword : ∀ i ≤ argv.length, ∀ v < 2 ^ 64, (argAddrs sz argv).getD i 0 = v →
      (withStack f sz argv).get (sz - stackSize argv + i * 8) 8 = v := by
    intro i hi v hv hget
    refine Bytes.get_of_bytes (by rwa [show (256 : ℕ) ^ 8 = 2 ^ 64 by norm_num]) fun k hk => ?_
    rw [withStack, Bytes.blit, if_pos (by omega), ustackBytes,
      show sz - stackSize argv + i * 8 + k - (sz - stackSize argv) = i * 8 + k by omega,
      show (i * 8 + k) / 8 = i by omega, show (i * 8 + k) % 8 = k by omega, hget]
  -- the array is below the strings
  have habove : ∀ a, sz - argsSize argv ≤ a → withStack f sz argv a = withArgs f sz argv a := by
    intro a ha
    rw [withStack, Bytes.blit, if_neg (by omega)]
  refine ⟨by omega, by omega, by omega, hword _ le_rfl 0 (by norm_num) ?_, ?_⟩
  · rw [← hlen, List.getD_eq_getElem?_getD, List.getElem?_eq_none le_rfl]
    rfl
  · intro i arg hi
    have hilt : i < argv.length := (List.getElem?_eq_some_iff.mp hi).1
    obtain ⟨a, ha, hlow, hhigh, hbytes, hbelow⟩ := argAddrs_spec (f := f) (show argsSize argv ≤ sz by omega) hi
    have hget : ∀ {j b}, (argAddrs sz argv)[j]? = some b → (argAddrs sz argv).getD j 0 = b := by
      intro j b hb
      rw [List.getD_eq_getElem?_getD, hb]
      rfl
    dsimp only
    rw [hword i hilt.le a (by omega) (hget ha)]
    refine ⟨by omega, hhigh, fun k hk => ?_, fun j arg' hj harg' => ?_⟩
    · rw [habove _ (by omega), hbytes k hk]
    · have hjlt : j < argv.length := (List.getElem?_eq_some_iff.mp harg').1
      obtain ⟨b, hb, -, hb', -⟩ := argAddrs_spec (f := f) (show argsSize argv ≤ sz by omega) harg'
      rw [hword j hjlt.le b (by omega) (hget hb)]
      exact hbelow j arg' b hj harg' hb

/-- The page below `sz` is one that user code may use, `sp` points into it, and the strings are shorter
than a page. -/
structure Ready (t : Pagetable) (sz sp : ℕ) (argv : List Str) : Prop where
  distinct : Distinct t
  accessible : ∀ a, sz - pgsize ≤ a → a < sz → Accessible t a
  room : 2 * pgsize ≤ sz
  small : sz < 2 ^ 64
  aligned : sp % 16 = 0
  low : sz - pgsize ≤ sp
  high : sp ≤ sz
  short : ∀ arg ∈ argv, arg.len < pgsize

/-- What the loop that pushes the strings leaves. -/
structure Pushed (t : Pagetable) (m : Mem) (sz sp : ℕ) (argv : List Str) (ustack : List ℕ) (r : Option (List ℕ × ℕ))
    (m' : Mem) : Prop where
  below : ∀ a < sz - pgsize, userMem t m' a = userMem t m a
  fails : r = none → sp < sz - pgsize + argsSize argv ∨ maxarg < ustack.length + argv.length
  pushed : ∀ us sp', r = some (us, sp') → sz - pgsize + argsSize argv ≤ sp ∧ us = ustack ++ argAddrs sp argv ∧
    sp' = sp - argsSize argv ∧ userMem t m' = withArgs (userMem t m) sp argv

section
variable {rights : Perm → Prop} {t : Pagetable} {m : Mem} {n sz sp : ℕ} {top : Set ℕ} {E : Halt → Prop} {argv : List Str}
  {arg : Str} {ustack : List ℕ}

theorem copyout_of_accessible {va len : ℕ} (src : Bytes) (h : ∀ i < len, Accessible t (va + i)) :
    copyout t va src len m = .ok (true, m.storeBytes t va src len) := by
  obtain ⟨k, hk, heq⟩ := copyoutLoop_spec (t := t) (le_refl len) va 0 src m
  obtain rfl := hk.eq_len_iff.mpr h
  unfold copyout
  rw [heq]
  simp

theorem copyout_returns (t : Pagetable) (va : ℕ) (src : Bytes) (len : ℕ) (m : Mem) :
    ∃ r, copyout t va src len m = .ok r := by
  obtain ⟨k, -, heq⟩ := copyoutLoop_spec (t := t) (le_refl len) va 0 src m
  exact ⟨_, heq⟩

theorem accessible_of_copyout {va len : ℕ} {src : Bytes} {m' : Mem} (h : copyout t va src len m = .ok (true, m')) {i : ℕ}
    (hi : i < len) : Accessible t (va + i) := by
  obtain ⟨k, hk, heq⟩ := copyoutLoop_spec (t := t) (le_refl len) va 0 src m
  unfold copyout at h
  rw [heq] at h
  have hlen : k = len := of_decide_eq_true (Prod.mk.inj (Except.ok.inj h)).1
  exact hk.eq_len_iff.mp hlen i hi

theorem short_of_copyout {m' : Mem} (hsp : sp ≤ sz) (hsz : sz ≤ maxva) (hbase : sz - pgsize ≤ push sp (arg.len + 1))
    (h : copyout t (push sp (arg.len + 1)) arg.bytes (arg.len + 1) m = .ok (true, m')) : arg.len < pgsize := by
  have hlast := (accessible_of_copyout h (Nat.lt_succ_self arg.len)).1
  have hpg : pgsize = 4096 := rfl
  unfold push at hbase hlast
  dsimp only at hbase hlast
  unfold maxva at hlast hsz
  by_contra hlong
  rw [Nat.mod_eq_of_lt (show arg.len + 1 < 2 ^ 64 by omega)] at hbase hlast
  omega

theorem wp_pushArgs_short (hsp : sp ≤ sz) (hsz : sz ≤ maxva) :
    Wp E (pushArgs t (sz - pgsize) argv ustack sp) m fun r _ => r ≠ none → ∀ arg ∈ argv, arg.len < pgsize := by
  induction argv generalizing m ustack sp with
  | nil =>
    rw [pushArgs, wp_pure]
    exact fun _ arg harg => absurd harg List.not_mem_nil
  | cons arg argv ih =>
    unfold pushArgs
    dsimp only
    split_ifs with hmany hfull
    · rw [wp_pure]
      exact fun hne => absurd rfl hne
    · rw [wp_pure]
      exact fun hne => absurd rfl hne
    · obtain ⟨⟨copied, m₁⟩, hx⟩ := copyout_returns t (push sp (arg.len + 1)) arg.bytes (arg.len + 1) m
      rw [wp_bind, wp_of_eq_ok hx]
      cases copied with
      | false =>
        simp only [Bool.not_false, if_true, wp_pure]
        exact fun hne => absurd rfl hne
      | true =>
        have hshort := short_of_copyout hsp hsz (not_lt.mp hfull) hx
        have hlast := (accessible_of_copyout hx (Nat.succ_pos arg.len)).1
        have hpg : pgsize = 4096 := rfl
        have hle : push sp (arg.len + 1) ≤ sz := by
          unfold push at hlast ⊢
          dsimp only at hlast ⊢
          unfold maxva at hlast hsz
          rw [Nat.mod_eq_of_lt (show arg.len + 1 < 2 ^ 64 by omega)] at hlast ⊢
          omega
        simp only [Bool.not_true, Bool.false_eq_true, if_false]
        refine (ih hle).mono fun r m₂ hr hne a ha => ?_
        rcases List.mem_cons.mp ha with rfl | ha
        · exact hshort
        · exact hr hne a ha

theorem Ready.push (h : Ready t sz sp (arg :: argv)) :
    push sp (arg.len + 1) = sp - padded (arg.len + 1) ∧ arg.len + 1 ≤ sp := by
  have hshort := h.short arg List.mem_cons_self
  have hroom := h.room
  have hlow := h.low
  have hle : arg.len + 1 ≤ sp := by omega
  exact ⟨push_eq h.aligned hle (lt_of_le_of_lt h.high h.small), hle⟩

theorem Ready.copyout (h : Ready t sz sp (arg :: argv)) (hfit : sz - pgsize ≤ sp - padded (arg.len + 1)) :
    copyout t (sp - padded (arg.len + 1)) arg.bytes (arg.len + 1) m =
      .ok (true, m.storeBytes t (sp - padded (arg.len + 1)) arg.bytes (arg.len + 1)) := by
  have hpad := le_padded (arg.len + 1)
  have hle := h.push.2
  have hhigh := h.high
  exact copyout_of_accessible _ fun i hi => h.accessible _ (by omega) (by omega)

theorem Ready.next (h : Ready t sz sp (arg :: argv)) (hfit : sz - pgsize ≤ sp - padded (arg.len + 1)) :
    Ready t sz (sp - padded (arg.len + 1)) argv where
  distinct := h.distinct
  accessible := h.accessible
  room := h.room
  small := h.small
  aligned := by
    have := h.aligned
    have := padded_mod (arg.len + 1)
    omega
  low := hfit
  high := (Nat.sub_le _ _).trans h.high
  short a ha := h.short a (List.mem_cons_of_mem _ ha)

theorem Pushed.cons {r : Option (List ℕ × ℕ)} {m' : Mem} (h : Ready t sz sp (arg :: argv))
    (hfit : sz - pgsize ≤ sp - padded (arg.len + 1))
    (hp : Pushed t (m.storeBytes t (sp - padded (arg.len + 1)) arg.bytes (arg.len + 1)) sz (sp - padded (arg.len + 1)) argv
      (ustack ++ [sp - padded (arg.len + 1)]) r m') : Pushed t m sz sp (arg :: argv) ustack r m' := by
  have hpad := le_padded (arg.len + 1)
  have hle := h.push.2
  have hhigh := h.high
  have hroom := h.room
  have hcons := argsSize_cons arg argv
  have hpg : 0 < pgsize := by decide
  have hstored := userMem_storeBytes (m := m) (n := arg.len + 1) (a := sp - padded (arg.len + 1)) h.distinct
    (fun i hi => h.accessible _ (by omega) (by omega)) arg.bytes
  refine ⟨fun a ha => ?_, fun hr => ?_, fun us sp' hr => ?_⟩
  · rw [hp.below a ha, hstored, Bytes.blit, if_neg (by omega)]
  · have := hp.fails hr
    rw [List.length_append, List.length_singleton] at this
    rw [hcons, List.length_cons]
    omega
  · obtain ⟨hroom', rfl, rfl, hmem⟩ := hp.pushed us sp' hr
    rw [hstored] at hmem
    exact ⟨by omega, by rw [List.append_assoc]; rfl, by omega, hmem⟩

theorem wp_pushArgs (h : Space rights t n top) :
    Wp E (pushArgs t (sz - pgsize) argv ustack sp) m fun r m' => Mem.Moves (holdings t) (holdings t) m m' ∧
      (Ready t sz sp argv → Pushed t m sz sp argv ustack r m') := by
  induction argv generalizing m ustack sp with
  | nil =>
    rw [pushArgs, wp_pure]
    refine ⟨.refl _ m, fun hr => ⟨fun _ _ => rfl, by simp, fun us sp' heq => ?_⟩⟩
    obtain ⟨rfl, rfl⟩ := Prod.mk.inj (Option.some.inj heq)
    exact ⟨by simpa [argsSize] using hr.low, (List.append_nil _).symm, rfl, rfl⟩
  | cons arg argv ih =>
    have hcons := argsSize_cons arg argv
    unfold pushArgs
    dsimp only
    split_ifs with hmany hfull
    · rw [wp_pure]
      refine ⟨.refl _ m, fun _ => ⟨fun _ _ => rfl, fun _ => .inr ?_, by simp⟩⟩
      rw [List.length_cons]
      omega
    · rw [wp_pure]
      refine ⟨.refl _ m, fun hr => ⟨fun _ _ => rfl, fun _ => .inl ?_, by simp⟩⟩
      rw [hr.push.1] at hfull
      omega
    · obtain ⟨⟨copied, m₁⟩, hx⟩ := copyout_returns t (push sp (arg.len + 1)) arg.bytes (arg.len + 1) m
      obtain ⟨-, hm⟩ := (h.wp_copyout (m := m) (E := E) (push sp (arg.len + 1)) arg.bytes (arg.len + 1)).of_ok hx
      rw [wp_bind, wp_of_eq_ok hx]
      cases copied with
      | false =>
        simp only [Bool.not_false, if_true, wp_pure]
        refine ⟨hm, fun hr => ?_⟩
        rw [hr.push.1] at hx hfull
        rw [hr.copyout (not_lt.mp hfull)] at hx
        cases hx
      | true =>
        simp only [Bool.not_true, Bool.false_eq_true, if_false]
        refine ih.mono fun r m₂ hr₂ => ⟨hm.trans hr₂.1, fun hr => ?_⟩
        rw [hr.push.1] at hx hfull hr₂
        rw [hr.copyout (not_lt.mp hfull)] at hx
        obtain ⟨-, rfl⟩ := Prod.mk.inj (Except.ok.inj hx)
        exact .cons hr (not_lt.mp hfull) (hr₂.2 (hr.next (not_lt.mp hfull)))

/-- What `exec` leaves when it has pushed the arguments, or has found no room for them. -/
structure StackPushed (t : Pagetable) (m : Mem) (sz : ℕ) (argv : List Str) (r : Option (ℕ × ℕ)) (m' : Mem) : Prop where
  below : ∀ a < sz - pgsize, userMem t m' a = userMem t m a
  fails : r = none → pgsize < stackSize argv ∨ maxarg < argv.length
  pushed : ∀ argc sp, r = some (argc, sp) → stackSize argv ≤ pgsize ∧ argc = argv.length ∧ sp = sz - stackSize argv ∧
    userMem t m' = withStack (userMem t m) sz argv

theorem wp_pushStack (h : Space rights t n top) (sz : ℕ) (argv : List Str) :
    Wp E (pushStack t sz argv) m fun r m' => Mem.Moves (holdings t) (holdings t) m m' ∧
      (Ready t sz sz argv → StackPushed t m sz argv r m') := by
  unfold pushStack
  rw [wp_bind]
  refine (wp_pushArgs h).mono fun r m₁ hr => ?_
  obtain ⟨hm, hpushed⟩ := hr
  cases r with
  | none =>
    rw [wp_pure]
    refine ⟨hm, fun hr => ?_⟩
    have hp := hpushed hr
    refine ⟨hp.below, fun _ => (hp.fails rfl).imp (fun hlt => ?_) fun hlt => by simpa using hlt, by simp⟩
    have := hr.room
    unfold stackSize
    omega
  | some r =>
    obtain ⟨ustack, sp⟩ := r
    have hpad := le_padded ((argv.length + 1) * 8)
    have hsize : stackSize argv = argsSize argv + padded ((argv.length + 1) * 8) := rfl
    have hlen := length_argAddrs sz argv
    dsimp only
    -- every string takes 16 bytes, so that the pointers to them take no more than a page
    have hsp : Ready t sz sz argv → push sp ((ustack.length + 1) * 8) = sz - stackSize argv ∧
        (argv.length + 1) * 8 ≤ sp ∧ sp = sz - argsSize argv ∧ ustack = argAddrs sz argv := by
      intro hr
      obtain ⟨hroom, rfl, rfl, -⟩ := (hpushed hr).pushed _ _ rfl
      have h16 := length_le_argsSize argv
      have hmod := argsSize_mod argv
      have hal := hr.aligned
      have hlow := hr.room
      have hsmall := hr.small
      have hpg : pgsize = 4096 := rfl
      have hle : (argv.length + 1) * 8 ≤ sz - argsSize argv := by omega
      rw [List.nil_append, hlen, push_eq (by omega) hle (by omega)]
      exact ⟨by omega, hle, rfl, rfl⟩
    split_ifs with hfull
    · rw [wp_pure]
      refine ⟨hm, fun hr => ⟨(hpushed hr).below, fun _ => .inl ?_, by simp⟩⟩
      have hroom := hr.room
      rw [(hsp hr).1] at hfull
      omega
    · rw [wp_bind]
      have hmoves := h.wp_copyout (m := m₁) (E := E) (push sp ((ustack.length + 1) * 8)) (ustackBytes ustack) ((ustack.length + 1) * 8)
      -- where the stack is ready, the array is stored
      have hacc : Ready t sz sz argv → ∀ i < (argv.length + 1) * 8, Accessible t (sz - stackSize argv + i) := by
        intro hr i hi
        obtain ⟨hp, hle, hs, -⟩ := hsp hr
        rw [hp] at hfull
        exact hr.accessible _ (by omega) (by omega)
      have hcopy : Ready t sz sz argv → copyout t (push sp ((ustack.length + 1) * 8)) (ustackBytes ustack) ((ustack.length + 1) * 8) m₁ =
          .ok (true, m₁.storeBytes t (sz - stackSize argv) (ustackBytes (argAddrs sz argv)) ((argv.length + 1) * 8)) := by
        intro hr
        obtain ⟨hp, -, -, hus⟩ := hsp hr
        rw [hp, hus, hlen]
        exact copyout_of_accessible _ (hacc hr)
      cases hx : copyout t (push sp ((ustack.length + 1) * 8)) (ustackBytes ustack) ((ustack.length + 1) * 8) m₁ with
      | error e => exact (wp_of_eq_error hx).mpr (hmoves.of_error hx)
      | ok r =>
        obtain ⟨copied, m₂⟩ := r
        obtain ⟨-, hm₂⟩ := hmoves.of_ok hx
        rw [wp_of_eq_ok hx, wp_pure]
        refine ⟨hm.trans hm₂, fun hr => ?_⟩
        obtain ⟨hp, hle, hs, hus⟩ := hsp hr
        obtain ⟨-, -, -, hmem⟩ := (hpushed hr).pushed _ _ rfl
        rw [hcopy hr] at hx
        obtain ⟨rfl, rfl⟩ := Prod.mk.inj (Except.ok.inj hx)
        have hstored := userMem_storeBytes (m := m₁) hr.distinct (hacc hr) (ustackBytes (argAddrs sz argv))
        rw [hp] at hfull
        refine ⟨fun a ha => ?_, by simp, fun argc sp' heq => ?_⟩
        · rw [hstored, Bytes.blit, if_neg (by omega), (hpushed hr).below a ha]
        · rw [if_pos rfl] at heq
          obtain ⟨rfl, rfl⟩ := Prod.mk.inj (Option.some.inj heq)
          have hroom := hr.room
          refine ⟨by omega, by rw [hus, hlen], hp, ?_⟩
          rw [hstored, hmem]
          rfl

theorem wp_pushStack_short (hsz : sz ≤ maxva) :
    Wp E (pushStack t sz argv) m fun r _ => r ≠ none → ∀ arg ∈ argv, arg.len < pgsize := by
  unfold pushStack
  rw [wp_bind]
  refine (wp_pushArgs_short le_rfl hsz).mono fun r m₁ hshort => ?_
  cases r with
  | none =>
    rw [wp_pure]
    exact fun hne => absurd rfl hne
  | some r =>
    have hshort := hshort (Option.some_ne_none r)
    dsimp only
    split_ifs with hfull
    · rw [wp_pure]
      exact fun _ => hshort
    · obtain ⟨q, hx⟩ := copyout_returns t (push r.2 ((r.1.length + 1) * 8)) (ustackBytes r.1) ((r.1.length + 1) * 8) m₁
      rw [wp_bind, wp_of_eq_ok hx, wp_pure]
      exact fun _ => hshort

end

end Xv6.Vm
