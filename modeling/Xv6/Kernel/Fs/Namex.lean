import Xv6.Kernel.Fs.Change
import Xv6.Kernel.Fs.Path

/-! `namex` follows a path. It takes one reference for the inode it returns, and drops the others. -/
namespace Xv6.Fs
open Lib SlotMap Multiset

/-- Where a list of names leads to from inode `j`; or, with `parent`, to the directory of the last. -/
def resolve (F : Files) (parent : Bool) : ℕ → List Key → Option ℕ
  | j, [] => if parent then none else some j
  | j, k :: ks =>
    match F j with
    | none => none
    | some f =>
      if f.type = .dir then
        if parent && ks.isEmpty then some j
        else
          match find k (slots f.content) with
          | none => none
          | some (_, inum) => resolve F parent inum ks
      else none

section
variable {F : Files} {parent : Bool} {j : ℕ} {k : Key} {ks : List Key} {f : Node}

theorem resolve_of_not_dir (hj : F j = some f) (ht : f.type ≠ .dir) : resolve F parent j (k :: ks) = none := by
  rw [resolve, hj]
  exact if_neg ht

theorem resolve_last (hj : F j = some f) (ht : f.type = .dir) (hlast : (parent && ks.isEmpty) = true) :
    resolve F parent j (k :: ks) = some j := by
  rw [resolve, hj]
  dsimp only
  rw [if_pos ht, if_pos hlast]

theorem resolve_of_dir (hj : F j = some f) (ht : f.type = .dir) (hlast : ¬ (parent && ks.isEmpty) = true) :
    resolve F parent j (k :: ks) = (find k (slots f.content)).bind fun p => resolve F parent p.2 ks := by
  rw [resolve, hj]
  dsimp only
  rw [if_pos ht, if_neg hlast]
  cases find k (slots f.content) with
  | none | some p => rfl

theorem Fewer.resolve {F' : Files} (h : Fewer F' F) {l : ℕ} (hr : resolve F' parent j ks = some l) :
    resolve F parent j ks = some l := by
  induction ks generalizing j with
  | nil => exact hr
  | cons k ks ih =>
    cases hj : F' j with
    | none =>
      rw [Fs.resolve, hj] at hr
      cases hr
    | some f =>
      by_cases ht : f.type = .dir
      · by_cases hlast : (parent && ks.isEmpty) = true
        · rw [resolve_last hj ht hlast] at hr
          rw [resolve_last (h j f hj) ht hlast, hr]
        · rw [resolve_of_dir hj ht hlast] at hr
          obtain ⟨p, hp, hr⟩ := Option.bind_eq_some_iff.mp hr
          rw [resolve_of_dir (h j f hj) ht hlast, hp]
          exact ih hr
      · rw [resolve_of_not_dir hj ht] at hr
        cases hr

end

section
variable {sb : Superblock} {H : Multiset Handle} {s s' s'' : State} {i cwd : Fin ninode} {j : ℕ} {E : Halt → Prop}
  {path : List UInt8} {name : Bytes} {parent : Bool} {k : Key} {ks : List Key}

/-- What `namex` returns when it looks for `ks` from inode `j` on. -/
structure Resolved (sb : Superblock) (H : Multiset Handle) (parent : Bool) (j : ℕ) (ks : List Key) (s : State)
    (r : Option (Fin ninode) × Bytes) (s' : State) : Prop where
  changes : Changes sb H (s.disk.file sb) (s'.disk.file sb)
  fewer : Fewer (s'.disk.file sb) (s.disk.file sb)
  same : Settled H (s.disk.file sb) → s'.disk = s.disk
  keeps : Keeps H s s'
  none : r.1 = none → Ok sb true ∅ H s' ∧
    (Settled H (s.disk.file sb) → resolve (s.disk.file sb) parent j ks = none)
  some : ∀ i, r.1 = some i → ∃ j', Ok sb true ∅ ((i, j') ::ₘ H) s' ∧ j' < sb.ninodes ∧
    resolve (s.disk.file sb) parent j ks = some j' ∧
    (parent = true → ks.getLast? = some (keyOf r.2) ∧ ∃ f, s'.disk.file sb j' = some f ∧ f.type = .dir)

/-- The directories say where the walk can go, and nothing it meets is freed. -/
def Walkable (H : Multiset Handle) (F : Files) (j : ℕ) : Prop := Settled H F ∧ NoDangling F ∧ F j ≠ none

theorem Resolved.fail (hst : Still sb H s s') (hf : Fewer (s'.disk.file sb) (s.disk.file sb)) (h : Ok sb true ∅ H s')
    (hr : resolve (s.disk.file sb) parent j ks = .none) : Resolved sb H parent j ks s (.none, name) s' :=
  ⟨hst.changes, hf, hst.same, hst.keeps, fun _ => ⟨h, fun _ => hr⟩, fun i hi => absurd hi (by simp)⟩

theorem Resolved.still {r : Option (Fin ninode) × Bytes} (h : Resolved sb H parent j ks s r s') : Still sb H s s' :=
  ⟨h.changes, h.same, h.keeps⟩

theorem Resolved.of_disk {r : Option (Fin ninode) × Bytes} (hd : s'.disk = s.disk) (hk : Keeps H s s')
    (h : Resolved sb H parent j ks s' r s'') : Resolved sb H parent j ks s r s'' :=
  ⟨hd ▸ h.changes, hd ▸ h.fewer, hd ▸ h.same, hk.trans h.keeps, hd ▸ h.none, hd ▸ h.some⟩

theorem Resolved.step {l : ℕ} {r : Option (Fin ninode) × Bytes} (hst : Still sb H s s')
    (hf : Fewer (s'.disk.file sb) (s.disk.file sb))
    (hr : resolve (s.disk.file sb) parent j (k :: ks) = resolve (s.disk.file sb) parent l ks)
    (h : Resolved sb H parent l ks s' r s'') : Resolved sb H parent j (k :: ks) s r s'' := by
  have hall := hst.trans h.still
  refine ⟨hall.changes, h.fewer.trans hf, hall.same, hall.keeps, fun hn => ?_, fun i' hi' => ?_⟩
  · obtain ⟨hok, hres⟩ := h.none hn
    refine ⟨hok, fun hset => ?_⟩
    rw [hst.same hset] at hres
    rw [hr, hres hset]
  · obtain ⟨j', hok, hj', hres, hparent⟩ := h.some i' hi'
    refine ⟨j', hok, hj', hr.trans (hf.resolve hres), fun hp => ⟨?_, (hparent hp).2⟩⟩
    · have hlast := (hparent hp).1
      cases ks with
      | nil => simp at hlast
      | cons a l => rwa [List.getLast?_cons_cons]

theorem keys_skipelem {path' : List UInt8} {name' : Bytes} (hz : 0 ∉ path)
    (h : skipelem path name = some (path', name')) :
    keys path = keyOf name' :: keys path' ∧ path'.isEmpty = (keys path').isEmpty ∧ path'.length < path.length ∧
      0 ∉ path' := by
  obtain ⟨e, hcomp, hkey, hlen, hz', hrest⟩ := skipelem_eq_some hz h
  refine ⟨by rw [keys, hcomp, List.map_cons, ← hkey]; rfl, ?_, hlen, hz'⟩
  cases hk : keys path' with
  | nil =>
    rw [keys, List.map_eq_nil_iff] at hk
    rw [hrest hk]
    rfl
  | cons a l =>
    cases path' with
    | nil => simp [keys, components] at hk
    | cons b m => rfl

theorem NoDangling.resolve {F : Files} (h : NoDangling F) (hj : F j ≠ .none) {l : ℕ}
    (hr : resolve F parent j ks = .some l) : F l ≠ .none := by
  induction ks generalizing j with
  | nil =>
    rw [Fs.resolve] at hr
    split_ifs at hr
    exact Option.some.inj hr ▸ hj
  | cons k ks ih =>
    obtain ⟨f, hf⟩ := Option.ne_none_iff_exists'.mp hj
    by_cases ht : f.type = .dir
    · by_cases hlast : (parent && ks.isEmpty) = true
      · rw [resolve_last hf ht hlast] at hr
        exact Option.some.inj hr ▸ hj
      · rw [resolve_of_dir hf ht hlast] at hr
        obtain ⟨p, hp, hr⟩ := Option.bind_eq_some_iff.mp hr
        exact ih (h j f hf ht p.1 k p.2 (getElem?_of_find hp)) hr
    · rw [resolve_of_not_dir hf ht] at hr
      cases hr

/-- Two entries of the inode cache are free: `namex` holds a directory while it takes the next inode. -/
def Spare (H : Multiset Handle) : Prop :=
  ∃ a b : Fin ninode, a ≠ b ∧ (∀ l, (a, l) ∉ H) ∧ ∀ l, (b, l) ∉ H

theorem Ok.not_spare {t : Bool} {L : Finset (Fin ninode)} (h : Ok sb t L ((i, j) ::ₘ H) s) (hfull : ∀ k, 0 < (s.inode k).ref) :
    ¬ Spare H := by
  rintro ⟨a, b, hne, ha, hb⟩
  have hheld : ∀ c, (∀ l, (c, l) ∉ H) → c = i := by
    intro c hc
    obtain ⟨l, hl⟩ := h.mem_iff.mp (hfull c)
    rcases mem_cons.mp hl with heq | hl
    · exact (Prod.mk.inj heq).1
    · exact absurd hl (hc l)
  exact hne ((hheld a ha).trans (hheld b hb).symm)

/-- The walk at a locked directory. -/
theorem wp_namexDir {path' : List UInt8} {fuel : ℕ} {Q : Option (Fin ninode) × Bytes → State → Prop}
    (h : Ok sb true (insert i ∅) ((i, j) ::ₘ H) s) (hdir : (s.disk.node j).type = .dir)
    (hfmt : Formatted sb (s.disk.file sb)) (hlast : ¬ (parent && ks.isEmpty) = true) (hE : ¬ Spare H → E (.panic .igetNoInodes))
    (hnone : ∀ s', Resolved sb H parent j (keyOf name :: ks) s (.none, name) s' → Q (.none, name) s')
    (hsome : ∀ next l s', Ok sb true ∅ ((next, l) ::ₘ H) s' → l < sb.ninodes →
      Still sb H s s' → Fewer (s'.disk.file sb) (s.disk.file sb) → (NoDangling (s.disk.file sb) → s.disk.file sb l ≠ .none) →
      resolve (s.disk.file sb) parent j (keyOf name :: ks) = resolve (s.disk.file sb) parent l ks →
      Wp E (namexLoop sb parent fuel next path' name) s' Q) :
    Wp E (do
      match ← dirlookup sb i name with
      | .none => do
        iunlockput sb i
        return (.none, name)
      | .some (next, _) => do
        iunlockput sb i
        namexLoop sb parent fuel next path' name) s Q := by
  have hself : (i, j) ∈ (i, j) ::ₘ H := mem_cons_self _ _
  have hi : i ∈ insert i (∅ : Finset (Fin ninode)) := Finset.mem_insert_self i ∅
  have hfile := h.file hself hi
  have hent : Entries sb (s.disk.content j) := hfmt.entries j _ hfile hdir
  have hres := @resolve_of_dir (s.disk.file sb) parent j (keyOf name) ks _ hfile hdir hlast
  rw [wp_bind]
  refine wp_dirlookup h hself hi hdir hent.aligned (fun hfull => hE (h.not_spare hfull)) (fun hfind => ?_) fun m inum next s₂ hfind hd₂ _ hkeep₂ hok₂ => ?_
  · dsimp only
    rw [wp_bind]
    refine wp_unlockput h fun s₂ hfile₂ hst hok₂ => ?_
    rw [wp_pure]
    refine hnone s₂ (.fail hst (hfile₂ ▸ fewer_settle) hok₂ ?_)
    have hf : find (keyOf name) (slots (s.disk.toNode j).content) = .none := hfind
    rw [hres, hf]
    rfl
  · dsimp only
    rw [wp_bind]
    have hok₂' : Ok sb true (insert i ∅) ((i, j) ::ₘ (next, inum) ::ₘ H) s₂ := by
      rwa [cons_swap]
    refine wp_unlockput hok₂' fun s₃ hfile₃ hst₃ hok₃ => ?_
    rw [hd₂] at hfile₃
    have hget := getElem?_of_find hfind
    refine hsome next inum s₃ hok₃ (hent.small m _ inum hget)
      ((Still.of_disk hd₂ (hkeep₂.mono (subset_cons H _))).trans hst₃.mono) (hfile₃ ▸ fewer_settle)
      (fun hno => hno j _ hfile hdir m _ inum hget) ?_
    have hf : find (keyOf name) (slots (s.disk.toNode j).content) = .some (m, inum) := hfind
    rw [hres, hf]
    rfl

theorem wp_namexLoop {fuel : ℕ} (h : Ok sb true ∅ ((i, j) ::ₘ H) s) (hj : j < sb.ninodes)
    (hfmt : Formatted sb (s.disk.file sb)) (hz : 0 ∉ path) (hfuel : path.length < fuel)
    (hE : ¬ Spare H → E (.panic .igetNoInodes)) (hE' : ¬ Walkable H (s.disk.file sb) j → E (.panic .ilockNoType)) :
    Wp E (namexLoop sb parent fuel i path name) s (Resolved sb H parent j (keys path) s) := by
  induction fuel generalizing i j path name s with
  | zero => omega
  | succ fuel ih =>
    have hself : (i, j) ∈ (i, j) ::ₘ H := mem_cons_self _ _
    rw [namexLoop]
    cases hskip : skipelem path name with
    | none =>
      have hks : keys path = [] := by rw [keys, skipelem_eq_none hskip, List.map_nil]
      rw [hks]
      dsimp only
      cases parent with
      | false =>
        rw [if_neg Bool.false_ne_true, wp_pure]
        refine ⟨.refl, .refl _, fun _ => rfl, .refl H s, fun hn => absurd hn (by simp), fun i' hi' => ?_⟩
        obtain rfl := Option.some.inj hi'
        exact ⟨j, h, hj, rfl, fun hp => absurd hp Bool.false_ne_true⟩
      | true =>
        rw [if_pos rfl, wp_bind]
        refine wp_iput_any h (fun hL => absurd hL (Finset.notMem_empty i)) fun s₁ hst hf hok => ?_
        rw [wp_pure]
        exact .fail hst hf hok rfl
    | some r =>
      obtain ⟨path', name'⟩ := r
      obtain ⟨hks, hempty, hlen, hz'⟩ := keys_skipelem hz hskip
      rw [hks]
      dsimp only
      rw [wp_bind]
      refine wp_ilock_first h hj (fun hnone => hE' fun hw => hw.2.2 hnone) fun s₁ hd₁ hlive hkeep₁ hok₁ => ?_
      have hi : i ∈ insert i (∅ : Finset (Fin ninode)) := Finset.mem_insert_self i ∅
      have hfile : s.disk.file sb j = some (s.disk.toNode j) := View.file_of_live hlive
      have hdin : s₁.din i = s.disk.node j := by rw [hok₁.din hself hi, hd₁]
      rw [wp_bind, wp_get, hdin]
      by_cases hdir : (s.disk.node j).type = .dir
      · rw [if_neg (not_not.mpr hdir), hempty]
        by_cases hstop : (parent && (keys path').isEmpty) = true
        · -- the directory of the last component
          rw [if_pos hstop, wp_bind]
          refine wp_iunlock_ok hok₁ hi fun s₂ hd₂ _ hkeep₂ hok₂ => ?_
          rw [wp_pure]
          have hdisk : s₂.disk = s.disk := hd₂.trans hd₁
          refine ⟨by rw [hdisk], by rw [hdisk]; exact .refl _, fun _ => hdisk, hkeep₁.trans (hkeep₂.mono (subset_cons H _)), fun hn => absurd hn (by simp), fun i' hi' => ?_⟩
          obtain rfl := Option.some.inj hi'
          refine ⟨j, hok₂.unlock_only, hj, resolve_last hfile hdir hstop,
            fun _ => ⟨?_, s.disk.toNode j, by rw [hdisk, hfile], hdir⟩⟩
          rw [Bool.and_eq_true] at hstop
          rw [List.isEmpty_iff.mp hstop.2]
          rfl
        · rw [if_neg hstop]
          refine wp_namexDir hok₁ (by rwa [hd₁]) (by rwa [hd₁]) hstop hE (fun s' hr => ?_)
            fun next l s' hok hl hst hf hdangle hres => ?_
          · exact hr.of_disk hd₁ hkeep₁
          · have hst' : Still sb H s s' := (Still.of_disk hd₁ hkeep₁).trans hst
            rw [hd₁] at hf hdangle hres
            refine (ih hok hl (hst'.changes.formatted hfmt) hz' (by omega) fun hnw => ?_).mono
              fun r s' hr => hr.step hst' hf hres
            refine hE' fun hw => hnw ?_
            rw [hst'.same hw.1]
            exact ⟨hw.1, hw.2.1, hdangle hw.2.1⟩
      · rw [if_pos hdir, wp_bind]
        refine wp_unlockput hok₁ fun s₂ hfile₂ hst₂ hok₂ => ?_
        rw [hd₁] at hfile₂
        rw [wp_pure]
        exact .fail ((Still.of_disk hd₁ hkeep₁).trans hst₂) (hfile₂ ▸ fewer_settle) hok₂ (resolve_of_not_dir hfile hdir)

/-- Where a path starts. -/
def startOf (jc : ℕ) (path : List UInt8) : ℕ := if path.head? = some slash then rootino else jc

theorem wp_namex {jc : ℕ} (h : Ok sb true ∅ H s) (hcwd : (cwd, jc) ∈ H) (hjc : jc < sb.ninodes)
    (hfmt : Formatted sb (s.disk.file sb)) (hz : 0 ∉ path) (hE : ¬ Spare H → E (.panic .igetNoInodes))
    (hE' : ¬ Walkable H (s.disk.file sb) (startOf jc path) → E (.panic .ilockNoType)) :
    Wp E (namex sb cwd path parent name) s (Resolved sb H parent (startOf jc path) (keys path) s) := by
  unfold namex
  unfold startOf at *
  dsimp only
  by_cases hroot : path.head? = some slash
  · rw [if_pos hroot] at hE'
    rw [if_pos hroot, if_pos hroot, wp_bind]
    refine wp_iget h (fun hfull => hE ?_) fun i s₁ hd _ hkeep hok => ?_
    · rintro ⟨a, -, -, ha, -⟩
      obtain ⟨l, hl⟩ := h.mem_iff.mp (hfull a)
      exact ha l hl
    have := @wp_namexLoop sb H s₁ i rootino E path name parent (path.length + 1) hok hfmt.root (by rwa [hd]) hz
      (Nat.lt_succ_self _) hE (by rwa [hd])
    exact this.mono fun r s' hr => hr.of_disk hd hkeep
  · rw [if_neg hroot] at hE'
    rw [if_neg hroot, if_neg hroot, wp_bind]
    refine wp_idup h hcwd fun s₁ hd hkeep hok => ?_
    have := @wp_namexLoop sb H s₁ cwd jc E path name parent (path.length + 1) hok hjc (by rwa [hd]) hz
      (Nat.lt_succ_self _) hE (by rwa [hd])
    exact this.mono fun r s' hr => hr.of_disk hd hkeep

/-- What a call can rely on: the files are as they should be, and the caller has a directory. -/
structure Calling (sb : Superblock) (t : Bool) (H : Multiset Handle) (cwd : Fin ninode) (jc : ℕ) (s : State) : Prop where
  ok : Ok sb t ∅ H s
  formatted : Formatted sb (s.disk.file sb)
  cwd : (cwd, jc) ∈ H
  small : jc < sb.ninodes

theorem Ok.beginOp {t : Bool} {L : Finset (Fin ninode)} (h : Ok sb t L H s) : Ok sb true L H s.beginOp :=
  ⟨rfl, h.ref, h.inum, h.unique, h.saved, h.locked, h.held, h.sound⟩

theorem Ok.endOp {t : Bool} {L : Finset (Fin ninode)} (h : Ok sb t L H s) : Ok sb false L H s.endOp :=
  ⟨rfl, h.ref, h.inum, h.unique, h.saved, h.locked, h.held, h.sound⟩

theorem Calling.beginOp {t : Bool} {jc : ℕ} (h : Calling sb t H cwd jc s) : Calling sb true H cwd jc s.beginOp :=
  ⟨h.ok.beginOp, h.formatted, h.cwd, h.small⟩

/-- Every path leads to files. -/
structure Clear (H : Multiset Handle) (F : Files) (jc : ℕ) : Prop where
  settled : Settled H F
  noDangling : NoDangling F
  root : F rootino ≠ none
  cwd : F jc ≠ none

theorem Clear.walkable {F : Files} {jc : ℕ} (h : Clear H F jc) : Walkable H F (startOf jc path) := by
  refine ⟨h.settled, h.noDangling, ?_⟩
  unfold startOf
  split_ifs
  · exact h.root
  · exact h.cwd

theorem wp_nameiparent {jc : ℕ} (h : Calling sb true H cwd jc s) (hz : 0 ∉ path)
    (hE : ¬ Spare H → E (.panic .igetNoInodes)) (hE' : ¬ Clear H (s.disk.file sb) jc → E (.panic .ilockNoType)) :
    Wp E (nameiparent sb cwd path) s (Resolved sb H true (startOf jc path) (keys path) s) :=
  wp_namex h.ok h.cwd h.small h.formatted hz hE fun hw => hE' fun hc => hw hc.walkable

theorem wp_namei {jc : ℕ} {Q : Option (Fin ninode) → State → Prop} (h : Calling sb true H cwd jc s) (hz : 0 ∉ path)
    (hE : ¬ Spare H → E (.panic .igetNoInodes)) (hE' : ¬ Clear H (s.disk.file sb) jc → E (.panic .ilockNoType))
    (hQ : ∀ r s', Resolved sb H false (startOf jc path) (keys path) s r s' → Q r.1 s') :
    Wp E (namei sb cwd path) s Q := by
  unfold namei
  rw [wp_bind]
  refine (wp_namex h.ok h.cwd h.small h.formatted hz hE fun hw => hE' fun hc => hw hc.walkable).mono fun r s' hr => ?_
  rw [wp_pure]
  exact hQ r s' hr

/-- The lock of the inode that a path leads to. -/
theorem wp_ilock_found {jc : ℕ} {r : Option (Fin ninode) × Bytes} {Q : PUnit → State → Prop}
    (hr : Resolved sb H parent (startOf jc path) ks s r s') (ho : r.1 = some i)
    (hE : ¬ Clear H (s.disk.file sb) jc → E (.panic .ilockNoType))
    (hQ : ∀ j s'', resolve (s.disk.file sb) parent (startOf jc path) ks = some j → s''.disk = s'.disk →
      s'.disk.Live sb j → Keeps H s' s'' → Ok sb true (insert i ∅) ((i, j) ::ₘ H) s'' → Q ⟨⟩ s'') :
    Wp E (ilock i) s' Q := by
  obtain ⟨j, hok, hj, hres, -⟩ := hr.some i ho
  refine wp_ilock_first hok hj (fun hnone => hE fun hclear => ?_) fun s'' hd hl hk hok' => hQ j s'' hres hd hl hk hok'
  have hw : Walkable H _ (startOf jc path) := hclear.walkable
  rw [hr.same hclear.settled] at hnone
  exact hw.2.1.resolve hw.2.2 hres hnone

/-- The directory `g` is locked, and nothing else. -/
structure InDir (sb : Superblock) (H : Multiset Handle) (i : Fin ninode) (j : ℕ) (g : Node) (s : State) : Prop where
  ok : Ok sb true (insert i ∅) ((i, j) ::ₘ H) s
  formatted : Formatted sb (s.disk.file sb)
  file : s.disk.file sb j = some g
  dir : g.type = .dir

theorem InDir.node {g : Node} (h : InDir sb H i j g s) : g = s.disk.toNode j :=
  h.ok.node_eq (mem_cons_self _ _) (Finset.mem_insert_self i ∅) h.file

theorem InDir.type {g : Node} (h : InDir sb H i j g s) : (s.disk.node j).type = .dir := by
  have := h.dir
  rwa [h.node] at this

theorem InDir.aligned {g : Node} (h : InDir sb H i j g s) : direntSize ∣ (s.disk.content j).length := by
  have := (h.formatted.entries j g h.file h.dir).aligned
  rwa [h.node] at this

/-- The lock of the directory that `nameiparent` has found. -/
theorem wp_ilock_parent {Q : PUnit → State → Prop} (hr : Resolved sb H true j ks s (some i, name) s')
    (hfmt : Formatted sb (s.disk.file sb))
    (hQ : ∀ d g s'', resolve (s.disk.file sb) true j ks = some d → ks.getLast? = some (keyOf name) → s''.disk = s'.disk →
      Keeps H s' s'' → InDir sb H i d g s'' → Q ⟨⟩ s'') : Wp E (ilock i) s' Q := by
  obtain ⟨d, hok, hd, hres, hpar⟩ := hr.some i rfl
  obtain ⟨hlast, g, hg, hgt⟩ := hpar rfl
  refine wp_ilock_first hok hd (fun hnone => ?_) fun s'' hdisk _ hk hok' => hQ d g s'' hres hlast hdisk hk ⟨hok', ?_, ?_, hgt⟩
  · rw [hnone] at hg
    cases hg
  · rw [hdisk]
    exact hr.changes.formatted hfmt
  · rwa [hdisk]

end

end Xv6.Fs
