import Xv6.Kernel.Fs.Links

/-! `sys_unlink`: a name less, and the file gone with its last name and its last user. -/
namespace Xv6.Fs
open Lib SlotMap Multiset

/-- There is nothing but `.` and `..`. -/
def vacant (l : List (Option (Key × ℕ))) : Bool := (l.drop 2).all Option.isNone

/-- The bytes `c` of the directory `g` after the entry `m` has been erased. -/
structure Erases (g : Node) (m : ℕ) (c : List UInt8) : Prop where
  dir : g.type = .dir
  slots : slots c = (slots g.content).set m none
  aligned : direntSize ∣ c.length

theorem Changes.erase {sb : Superblock} {H : Multiset Handle} {F : Files} {j m : ℕ} {g : Node} {c : List UInt8}
    (hf : Formatted sb F) (hj : F j = some g) (hc : Erases g m c) : Changes sb H F (setContent F j c) := by
  unfold setContent
  rw [hj]
  refine .single (.entry hj ⟨hc.aligned, fun n k inum hn => ?_⟩)
  rw [hc.slots, List.getElem?_set] at hn
  split_ifs at hn with hmn hlt
  · exact absurd (Option.some.inj hn) (by simp)
  · exact (hf.entries j g hj hc.dir).small n k inum hn

section
variable {sb : Superblock} {short : ShortInt} {L : Finset (Fin ninode)} {H : Multiset Handle} {s s' : State}
  {i ip dp cwd : Fin ninode} {j d jc m : ℕ} {E : Halt → Prop}

theorem wp_isdiremptyLoop {t : Bool} {Q : Bool → State → Prop} {fuel n : ℕ} (h : Ok sb t L H s) (hm : (i, j) ∈ H)
    (hi : i ∈ L) (hc : direntSize ∣ (s.disk.content j).length)
    (hfuel : (s.disk.content j).length / direntSize < fuel + n)
    (hQ : Q (((slots (s.disk.content j)).drop n).all Option.isNone) s) :
    Wp E (isdiremptyLoop sb i fuel (direntSize * n)) s Q := by
  have hsize : (s.din i).size = (s.disk.content j).length := by rw [h.din hm hi, View.length_content]
  -- past the last entry
  have hlast : (s.disk.content j).length / direntSize ≤ n → Q true s := fun hle => by
    rwa [List.drop_eq_nil_of_le (by rwa [length_slots])] at hQ
  induction fuel generalizing n with
  | zero =>
    rw [isdiremptyLoop, wp_pure]
    exact hlast (by omega)
  | succ fuel ih =>
    rw [isdiremptyLoop, wp_bind, wp_get, hsize]
    by_cases hn : n < (s.disk.content j).length / direntSize
    · have hlt : direntSize * n < (s.disk.content j).length := by
        obtain ⟨m, hm⟩ := hc
        rw [hm, Nat.mul_div_cancel_left m (by decide)] at hn
        rw [hm]
        exact Nat.mul_lt_mul_of_pos_left hn (by decide)
      rw [if_pos hlt, wp_bind]
      refine wp_readDirent h hm hi hc hn ?_
      rw [drop_slots hn, List.all_cons] at hQ
      set de := Dirent.decode (direntAt (s.disk.content j) n) with hde
      by_cases h0 : de.inum = 0
      · rw [if_neg (not_not.mpr h0)]
        have hent : de.entry = none := if_pos h0
        rw [hent] at hQ
        have hstep : Q (((slots (s.disk.content j)).drop (n + 1)).all Option.isNone) s := hQ
        refine ih (by omega) hstep fun hle => ?_
        rwa [List.drop_eq_nil_of_le (by rwa [length_slots])] at hstep
      · rw [if_pos h0, wp_pure]
        have hent : de.entry = some (keyOf de.name, de.inum) := if_neg h0
        rw [hent] at hQ
        exact hQ
    · have hge : ¬ direntSize * n < (s.disk.content j).length := by
        obtain ⟨m, hm⟩ := hc
        rw [hm, Nat.mul_div_cancel_left m (by decide)] at hn
        rw [hm]
        exact fun hlt => hn (Nat.lt_of_mul_lt_mul_left hlt)
      rw [if_neg hge, wp_pure]
      exact hlast (by omega)

theorem wp_unlinkBusy {t : Bool} {Q : Bool → State → Prop} (h : Ok sb t L H s) (hm : (i, j) ∈ H) (hi : i ∈ L)
    (hc : (s.disk.node j).type = .dir → direntSize ∣ (s.disk.content j).length)
    (hQ : Q ((s.disk.node j).type = .dir && !vacant (slots (s.disk.content j))) s) : Wp E (unlinkBusy sb i) s Q := by
  have hdin := h.din hm hi
  unfold unlinkBusy
  rw [wp_bind, wp_get, hdin]
  by_cases hdir : (s.disk.node j).type = .dir
  · rw [if_pos hdir, wp_bind, isdirempty, wp_bind, wp_get, hdin]
    refine wp_isdiremptyLoop (n := 2) h hm hi (hc hdir) ?_ ?_
    · rw [View.length_content]
      omega
    · rw [wp_pure]
      simpa [hdir, vacant] using hQ
  · rw [if_neg hdir, wp_pure]
    simpa [hdir] using hQ

theorem wp_unlinkBad (h : Ok sb true (insert dp ∅) ((dp, d) ::ₘ H) s) :
    Wp E (unlinkBad sb dp) s fun r s' => r = -1 ∧ Done sb H s s' ∧ (Settled H (s.disk.file sb) → s'.disk = s.disk) := by
  unfold unlinkBad
  rw [wp_bind]
  refine wp_unlockput h fun s₁ _ hst hok₁ => ?_
  rw [wp_bind, endOp, wp_modify, wp_pure]
  exact ⟨rfl, hst.done hok₁, hst.same⟩

/-- The directory once the entry is gone; a directory has one subdirectory less. -/
def shrink (short : ShortInt) (F : Files) (d : ℕ) (c : List UInt8) (f : Node) : Files :=
  if f.type = .dir then relink short (setContent F d c) d (-1) else setContent F d c

/-- The files after the entry `m` of `d`, which names `j`, has been removed. -/
def unlinked (short : ShortInt) (H : Multiset Handle) (F : Files) (d : ℕ) (c : List UInt8) (j : ℕ) (f : Node) : Files :=
  settle H j (relink short (settle H d (shrink short F d c f)) j (-1))

/-- The entry `m` of `d`, which names `j`, may be removed. -/
structure Unlinkable (F : Files) (d : ℕ) (g : Node) (m : ℕ) (k : Key) (j : ℕ) (f : Node) (c : List UInt8) : Prop where
  parent : F d = some g
  file : F j = some f
  ne : j ≠ d
  entry : (slots g.content)[m]? = some (some (k, j))
  notDot : k ≠ keyOf dot
  notDotdot : k ≠ keyOf dotdot
  linked : 1 ≤ f.nlink
  empty : f.type = .dir → vacant (slots f.content) = true
  erases : Erases g m c

/-- The file that `sys_unlink` finds. -/
def unlinkTarget (F : Files) (jc : ℕ) (path : List UInt8) : Option ℕ := do
  let d ← resolve F true (startOf jc path) (keys path)
  let g ← F d
  let k ← (keys path).getLast?
  let (_, j) ← find k (slots g.content)
  return j

/-- What `sys_unlink` does when `target` is what it finds. -/
def UnlinkPost (sb : Superblock) (short : ShortInt) (H : Multiset Handle) (target : Option ℕ) (s : State) (r : ℤ)
    (s' : State) : Prop :=
  r = -1 ∧ s'.disk = s.disk ∨
  r = 0 ∧ ∃ d g m k j f c, target = some j ∧ Unlinkable (s.disk.file sb) d g m k j f c ∧
    s'.disk.file sb = unlinked short H (s.disk.file sb) d c j f

/-- The removal of an entry that has been found in a locked directory. -/
theorem wp_unlinkEntry {g : Node} {k : Key} (h : Ok sb true (insert dp ∅) ((ip, j) ::ₘ (dp, d) ::ₘ H) s)
    (hfmt : Formatted sb (s.disk.file sb)) (hg : s.disk.file sb d = some g) (hdir : g.type = .dir)
    (hent : (slots g.content)[m]? = some (some (k, j))) (hk : k ≠ keyOf dot ∧ k ≠ keyOf dotdot) (hE : ∀ e, Fault e → E e)
    (hE' : s.disk.file sb j = none → E (.panic .ilockNoType)) :
    Wp E (unlinkEntry sb short dp ip (direntSize * m)) s fun r s' => Done sb H s s' ∧
      (Settled H (s.disk.file sb) → UnlinkPost sb short H (some j) s r s') := by
  set Hd := (dp, d) ::ₘ H with hHd
  have hself : (ip, j) ∈ (ip, j) ::ₘ Hd := mem_cons_self _ _
  have hdp : (dp, d) ∈ (ip, j) ::ₘ Hd := mem_cons_of_mem (mem_cons_self _ _)
  have hsub : H ⊆ (ip, j) ::ₘ Hd := fun p hp => mem_cons_of_mem (mem_cons_of_mem hp)
  have hentries := hfmt.entries d g hg hdir
  have hj : j < sb.ninodes := hentries.small m k j hent
  unfold unlinkEntry
  rw [wp_bind]
  refine wp_ilock_ok h hself hj (fun _ => hE _ (.inl rfl))
    (fun hfree => hE' (View.file_eq_none.mpr fun hl => hl.2 hfree)) fun s₁ hnot hd₁ hlive hk₁ hok₁ => ?_
  have hip : ip ∈ insert ip (insert dp (∅ : Finset (Fin ninode))) := Finset.mem_insert_self _ _
  have hdL : dp ∈ insert ip (insert dp (∅ : Finset (Fin ninode))) :=
    Finset.mem_insert_of_mem (Finset.mem_insert_self _ _)
  have hne : ip ≠ dp := fun heq => hnot (heq ▸ Finset.mem_insert_self _ _)
  have hjd : j ≠ d := fun heq => hne (h.unique ip dp d (heq ▸ hself) hdp)
  have hfile : s.disk.file sb j = some (s.disk.toNode j) := View.file_of_live hlive
  have hgd : g = s₁.disk.toNode d := hok₁.node_eq hdp hdL (by rwa [hd₁])
  rw [wp_bind, wp_get, hok₁.din hself hip]
  dsimp only
  have hnode : s₁.disk.node j = s.disk.node j := by rw [hd₁]
  rw [hnode]
  by_cases hlink : (s.disk.node j).nlink < 1
  · rw [if_pos hlink, wp_bind, wp_throw]
    exact hE _ (.inr ⟨_, by simp, rfl⟩)
  rw [if_neg hlink, wp_bind]
  refine wp_unlinkBusy hok₁ hself hip (fun hjdir => ?_) ?_
  · rw [hd₁] at hjdir ⊢
    exact (hfmt.entries j _ hfile hjdir).aligned
  rw [hd₁]
  set busy := ((s.disk.node j).type = .dir && !vacant (slots (s.disk.content j)) : Bool) with hbusy
  cases hb : busy with
  | true =>
    rw [if_pos rfl, wp_bind]
    refine wp_iunlockput hok₁ hip fun s₂ _ hst₂ hok₂ => ?_
    rw [Finset.erase_insert (by simp [hne])] at hok₂
    have hst : Still sb H s s₂ := (Still.of_disk hd₁ (hk₁.mono hsub)).trans hst₂.mono
    refine (wp_unlinkBad hok₂).mono fun r s' ⟨hr, hdone, hd'⟩ => ⟨hdone.after hst, fun hset => .inl ⟨hr, ?_⟩⟩
    rw [hst.same hset] at hd'
    exact hd' hset
  | false =>
    rw [if_neg Bool.false_ne_true, wp_bind]
    have hm : m < (s₁.disk.content d).length / direntSize := by
      rw [← length_slots]
      by_contra hge
      have hnone : (slots g.content)[m]? = none := by
        rw [hgd]
        exact List.getElem?_eq_none (not_lt.mp hge)
      rw [hnone] at hent
      cases hent
    have hal : direntSize ∣ (s₁.disk.content d).length := by
      rw [hgd] at hentries
      exact hentries.aligned
    refine wp_eraseDirent hok₁ hdp hdL hal hm (hE _ (.inr ⟨_, by simp, rfl⟩)) fun s₂ c hk₂ hok₂ hslots hlen hf₂ => ?_
    have herases : Erases g m c := ⟨hdir, by rw [hgd]; exact hslots, hlen⟩
    rw [← hok₁.setContent_eq hdp hdL, hd₁] at hf₂
    have hcerase : Changes sb H (s.disk.file sb) (setContent (s.disk.file sb) d c) := Changes.erase hfmt hg herases
    -- the directory loses a link with a subdirectory
    suffices hrest : ∀ s₃ : State, s₃.disk.file sb = shrink short (s.disk.file sb) d c (s.disk.toNode j) →
        Changes sb H (s.disk.file sb) (s₃.disk.file sb) →
        Keeps ((ip, j) ::ₘ Hd) s s₃ → Ok sb true (insert ip (insert dp ∅)) ((ip, j) ::ₘ Hd) s₃ →
        Wp E (do
          iunlockput sb dp
          addLinks sb short ip (-1)
          iunlockput sb ip
          endOp
          return (0 : ℤ)) s₃ fun r s' => Done sb H s s' ∧
            (Settled H (s.disk.file sb) → UnlinkPost sb short H (some j) s r s') by
      by_cases hjdir : (s.disk.node j).type = .dir
      · rw [if_pos hjdir, wp_bind]
        refine wp_addLinks hok₂ hdp hdL fun s₃ _ hk₃ hok₃ hf₃ => ?_
        rw [hf₂] at hf₃
        refine hrest s₃ ?_ ?_ ((hk₁.trans hk₂).trans hk₃) hok₃
        · rw [hf₃]
          exact (if_pos hjdir).symm
        · rw [hf₃]
          exact hcerase.trans Changes.relink
      · rw [if_neg hjdir]
        refine hrest s₂ ?_ ?_ (hk₁.trans hk₂) hok₂
        · rw [hf₂]
          exact (if_neg hjdir).symm
        · rwa [hf₂]
    intro s₃ hf₃ hc₃ hk₃ hok₃
    rw [wp_bind]
    rw [hHd, cons_swap] at hok₃
    refine wp_iunlockput hok₃ hdL fun s₄ hf₄ hst₄ hok₄ => ?_
    rw [Finset.insert_comm, Finset.erase_insert (by simp [Ne.symm hne])] at hok₄
    rw [settle_cons hjd.symm] at hf₄
    rw [wp_bind]
    refine wp_addLinks hok₄ (mem_cons_self _ _) (Finset.mem_insert_self _ _) fun s₅ _ hk₅ hok₅ hf₅ => ?_
    rw [wp_bind]
    refine wp_unlockput hok₅ fun s₆ hf₆ hst₆ hok₆ => ?_
    rw [wp_bind, endOp, wp_modify, wp_pure]
    have hc₅ : Changes sb H (s₄.disk.file sb) (s₅.disk.file sb) := by
      rw [hf₅]
      exact Changes.relink
    have hf : s₆.disk.file sb = unlinked short H (s.disk.file sb) d c j (s.disk.toNode j) := by
      rw [hf₆, hf₅, hf₄, hf₃]
      rfl
    refine ⟨⟨hok₆.endOp, ((hc₃.trans hst₄.mono.changes).trans hc₅).trans hst₆.changes, ?_⟩, fun hset => .inr ⟨rfl, d, g, m, k, j, _, c, rfl, ⟨hg, hfile, hjd, hent, hk.1, hk.2,
      ?_, fun hjdir => ?_, herases⟩, hf⟩⟩
    · exact (((hk₃.mono hsub).trans hst₄.mono.keeps).trans (hk₅.mono (subset_cons H _))).trans hst₆.keeps
    · show 1 ≤ (s.disk.node j).nlink
      omega
    · have hjdir' : (s.disk.node j).type = .dir := hjdir
      rw [hb, decide_eq_true hjdir', Bool.true_and] at hbusy
      exact (Bool.not_eq_false _).mp fun hv => by simp [show vacant (slots (s.disk.content j)) = false from hv] at hbusy

theorem namecmp_eq_zero {a b : Bytes} : namecmp a b = 0 ↔ keyOf a = keyOf b := strncmp_eq_zero _ _ _

theorem wp_sysUnlink {path : Option (List UInt8)} (h : Calling sb false H cwd jc s) (hz : ∀ p ∈ path, 0 ∉ p)
    (hE : ∀ e, Fault e → E e) (hE' : ¬ Clear H (s.disk.file sb) jc → E (.panic .ilockNoType)) :
    Wp E (sysUnlink sb short cwd path) s fun r s' => Done sb H s s' ∧
      (Settled H (s.disk.file sb) → UnlinkPost sb short H (path.bind (unlinkTarget (s.disk.file sb) jc)) s r s') := by
  unfold sysUnlink
  cases path with
  | none =>
    rw [wp_pure]
    exact ⟨⟨h.ok, .refl, .refl H s⟩, fun _ => .inl ⟨rfl, rfl⟩⟩
  | some path =>
    dsimp only
    rw [wp_bind, beginOp, wp_modify, wp_bind]
    refine (wp_nameiparent h.beginOp (hz path rfl) (fun _ => hE _ (.inr ⟨_, by simp, rfl⟩)) hE').mono fun r s₁ hr => ?_
    have hst₁ : Still sb H s s₁ := ⟨hr.changes, hr.same, hr.keeps⟩
    -- the rest of the call, from a state in which the directory has been found
    have hlift : ∀ {r : ℤ} {s₂ s' : State} {target : Option ℕ}, Still sb H s s₂ → Done sb H s₂ s' →
        (Settled H (s.disk.file sb) → unlinkTarget (s.disk.file sb) jc path = target) →
        (Settled H (s₂.disk.file sb) → UnlinkPost sb short H target s₂ r s') →
        Done sb H s s' ∧ (Settled H (s.disk.file sb) →
          UnlinkPost sb short H (unlinkTarget (s.disk.file sb) jc path) s r s') := by
      intro r s₂ s' target hst hdone htarget hpost
      refine ⟨hdone.after hst, fun hset => ?_⟩
      unfold UnlinkPost at hpost ⊢
      rw [hst.same hset] at hpost
      rw [htarget hset]
      exact hpost hset
    obtain ⟨o, name⟩ := r
    cases o with
    | none =>
      dsimp only
      rw [wp_bind, endOp, wp_modify, wp_pure]
      exact ⟨hst₁.done (hr.none rfl).1, fun hset => .inl ⟨rfl, hst₁.same hset⟩⟩
    | some dp =>
      dsimp only
      rw [wp_bind]
      refine wp_ilock_parent hr h.formatted fun d g s₂ hres hlast hd₂ hk₂ hdir => ?_
      have hst₂ : Still sb H s s₂ := hst₁.trans (.of_disk hd₂ hk₂)
      have hbad : Wp E (unlinkBad sb dp) s₂ fun r s' => Done sb H s s' ∧
          (Settled H (s.disk.file sb) → UnlinkPost sb short H (unlinkTarget (s.disk.file sb) jc path) s r s') :=
        (wp_unlinkBad hdir.ok).mono fun r s' hr =>
          hlift hst₂ hr.2.1 (fun _ => rfl) fun hset => .inl ⟨hr.1, hr.2.2 hset⟩
      by_cases hdots : namecmp name dot = 0 ∨ namecmp name dotdot = 0
      · rw [if_pos hdots]
        exact hbad
      · rw [if_neg hdots, wp_bind]
        rw [not_or, namecmp_eq_zero, namecmp_eq_zero] at hdots
        refine wp_dirlookup hdir.ok (mem_cons_self _ _) (Finset.mem_insert_self dp ∅) hdir.type hdir.aligned
          (fun _ => hE _ (.inr ⟨_, by simp, rfl⟩)) (fun _ => hbad) fun m j ip s₃ hfind hd₃ _ hk₃ hok₃ => ?_
        have hst₃ : Still sb H s s₃ := hst₂.trans (.of_disk hd₃ (hk₃.mono (subset_cons H _)))
        have hfind' : find (keyOf name) (slots g.content) = some (m, j) := by
          rw [hdir.node]
          exact hfind
        have hg := hdir.file
        refine (wp_unlinkEntry hok₃ (by rw [hd₃]; exact hdir.formatted) (by rwa [hd₃]) hdir.dir (getElem?_of_find hfind')
          hdots hE fun hnone => hE' fun hclear => ?_).mono fun r s' hr => hlift hst₃ hr.1 (fun hset => ?_) hr.2
        · rw [hst₂.same hclear.settled] at hg
          rw [hst₃.same hclear.settled] at hnone
          exact hclear.noDangling d g hg hdir.dir m _ j (getElem?_of_find hfind') hnone
        · rw [hst₂.same hset] at hg
          have hresd : resolve (s.disk.file sb) true (startOf jc path) (keys path) = some d := hres
          unfold unlinkTarget
          rw [hresd, hlast]
          simp [hg, hfind']

end

end Xv6.Fs
