import Xv6.Kernel.Vm.Memory
import Xv6.Kernel.Proc.Table
import Xv6.Lib.Count
import Mathlib.Data.Finset.Union

/-! Open files: the reference counts, and the page of a pipe as long as an end of it is
open. -/
namespace Xv6.Vm
open Lib Function Multiset

/-- Whether an end of the pipe is open, the one for writing or the one for reading. -/
def Pipe.isOpen (p : Pipe) (writable : Bool) : Bool := if writable then p.writeopen else p.readopen

/-- The pages that hold an open pipe. -/
def FdType.pipes : FdType → Finset Page
  | .pipe pi _ => {pi}
  | _ => ∅

def Sys.pipes (s : Sys) : Finset Page := Finset.univ.biUnion fun f => (s.file f).type.pipes

/-- The file that a file descriptor refers to. -/
def refOf : Option (Fin nfile) → Multiset (Fin nfile)
  | none => 0
  | some f => {f}

/-- The files that the file descriptors of the processes refer to. -/
@[irreducible] def Sys.fds (s : Sys) : Multiset (Fin nfile) :=
  ∑ x : Fin nproc × Fin nofile, refOf ((s.proc x.1).ofile x.2)

/-- The file table while `refs` are the references to files, those of file descriptors and
those that the kernel code has in its variables. -/
structure Sys.FilesOk (s : Sys) (refs : Multiset (Fin nfile)) : Prop where
  ref : ∀ f, (s.file f).ref = refs.count f
  closed : ∀ f, (s.file f).ref = 0 → (s.file f).type = .none
  isOpen : ∀ f pi w, (s.file f).type = .pipe pi w → (s.pipe pi).isOpen w = true
  unique : ∀ f g pi w, (s.file f).type = .pipe pi w → (s.file g).type = .pipe pi w → f = g
  other : ∀ f pi w, (s.file f).type = .pipe pi w → (s.pipe pi).isOpen (!w) = true →
    ∃ g, (s.file g).type = .pipe pi (!w)

/-- Only open files and memory are different. -/
def Sys.SameButFiles (s s' : Sys) : Prop := s' = { s with mem := s'.mem, file := s'.file, pipe := s'.pipe }

theorem Sys.SameButFiles.trans {s s' s'' : Sys} (h : s.SameButFiles s') (h' : s'.SameButFiles s'') :
    s.SameButFiles s'' := by
  unfold Sys.SameButFiles at *
  rw [h', h]

theorem Sys.SameButFiles.proc {s s' : Sys} (h : s.SameButFiles s') : s'.proc = s.proc := by
  rw [h]

/-- Open files and the pages of pipes change; files that `refs` refer to keep their type. -/
structure Sys.FilesMove (refs : Multiset (Fin nfile)) (s s' : Sys) : Prop where
  moves : Mem.Moves s.pipes.val s'.pipes.val s.mem s'.mem
  same : s.SameButFiles s'
  types : ∀ g ∈ refs, (s'.file g).type = (s.file g).type

theorem Sys.FilesMove.trans {refs : Multiset (Fin nfile)} {s s' s'' : Sys} (h : s.FilesMove refs s')
    (h' : s'.FilesMove refs s'') : s.FilesMove refs s'' where
  moves := h.moves.trans h'.moves
  same := h.same.trans h'.same
  types g hg := (h'.types g hg).trans (h.types g hg)

theorem FdType.mem_pipes {t : FdType} {pi : Page} : pi ∈ t.pipes ↔ ∃ w, t = .pipe pi w := by
  cases t with
  | pipe pa w => simp [FdType.pipes, eq_comm]
  | none | inode | device => simp [FdType.pipes]

theorem Sys.mem_pipes {s : Sys} {pi : Page} :
    pi ∈ s.pipes ↔ ∃ f w, (s.file f).type = .pipe pi w := by
  unfold Sys.pipes
  rw [Finset.mem_biUnion]
  simp only [FdType.mem_pipes, Finset.mem_univ, true_and]

theorem Sys.pipes_congr {s s' : Sys} (h : ∀ f, (s'.file f).type = (s.file f).type) :
    s'.pipes = s.pipes := by
  unfold Sys.pipes
  simp only [h]

theorem Sys.FilesMove.of_types {refs : Multiset (Fin nfile)} {s s' : Sys}
    (h : ∀ f, (s'.file f).type = (s.file f).type) (hmem : s'.mem = s.mem) (hsame : s.SameButFiles s') :
    s.FilesMove refs s' := by
  refine ⟨?_, hsame, fun g _ => h g⟩
  rw [Sys.pipes_congr h, hmem]
  exact .refl _ _

theorem Sys.FilesMove.weaken {refs refs' : Multiset (Fin nfile)} {s s' : Sys}
    (h : s.FilesMove refs s') (hle : ∀ g ∈ refs', g ∈ refs) : s.FilesMove refs' s' :=
  ⟨h.moves, h.same, fun g hg => h.types g (hle g hg)⟩

variable {E : Halt → Prop} {s : Sys} {α : Type} {refs : Multiset (Fin nfile)}

@[simp] theorem wp_onMem (x : K α) (Q : α → Sys → Prop) :
    Wp E (onMem x) s Q ↔ Wp E x s.mem fun a m => Q a { s with mem := m } := by
  unfold Wp onMem
  cases x s.mem <;> rfl

@[simp] theorem wp_setProc (i : Fin nproc) (p : Proc) (Q : Unit → Sys → Prop) :
    Wp E (setProc i p) s Q ↔ Q () { s with proc := update s.proc i p } := wp_modify _ _

@[simp] theorem wp_updProc (i : Fin nproc) (g : Proc → Proc) (Q : Unit → Sys → Prop) :
    Wp E (updProc i g) s Q ↔ Q () { s with proc := update s.proc i (g (s.proc i)) } :=
  wp_modify _ _

@[simp] theorem wp_setFile (f : Fin nfile) (g : File) (Q : Unit → Sys → Prop) :
    Wp E (setFile f g) s Q ↔ Q () { s with file := update s.file f g } := wp_modify _ _

@[simp] theorem deref_some (a : α) : deref (some a) = pure a := rfl

theorem Sys.FilesOk.congr {s' : Sys} (h : s.FilesOk refs) (hfile : s'.file = s.file)
    (hpipe : s'.pipe = s.pipe) : s'.FilesOk refs := by
  refine ⟨?_, ?_, ?_, ?_, ?_⟩
  · rw [hfile]
    exact h.ref
  · rw [hfile]
    exact h.closed
  · rw [hfile, hpipe]
    exact h.isOpen
  · rw [hfile]
    exact h.unique
  · rw [hfile, hpipe]
    exact h.other

/-- A descriptor of process `i` is set. -/
def Sys.setOfile (s : Sys) (i : Fin nproc) (fd : Fin nofile) (v : Option (Fin nfile)) : Sys :=
  { s with proc := update s.proc i ((s.proc i).setOfile fd v) }

@[simp] theorem wp_setOfile (i : Fin nproc) (fd : Fin nofile) (v : Option (Fin nfile))
    (Q : Unit → Sys → Prop) : Wp E (Vm.setOfile i fd v) s Q ↔ Q () (s.setOfile i fd v) :=
  wp_updProc _ _ _

theorem Sys.fds_setOfile (s : Sys) (i : Fin nproc) (fd : Fin nofile) (v : Option (Fin nfile)) :
    (s.setOfile i fd v).fds + refOf ((s.proc i).ofile fd) = s.fds + refOf v := by
  have hfun : (fun x : Fin nproc × Fin nofile => refOf (((s.setOfile i fd v).proc x.1).ofile x.2)) =
      update (fun x : Fin nproc × Fin nofile => refOf ((s.proc x.1).ofile x.2)) (i, fd)
        (refOf v) := by
    funext ⟨j, fd'⟩
    unfold Sys.setOfile Proc.setOfile
    by_cases hj : j = i
    · subst hj
      by_cases hfd : fd' = fd
      · simp [hfd]
      · simp [hfd]
    · simp [hj]
  unfold Sys.fds
  rw [hfun]
  exact sum_update_add _ (i, fd) (refOf v)

theorem Sys.fds_setOfile_some {i : Fin nproc} {fd : Fin nofile} (f : Fin nfile)
    (hfd : (s.proc i).ofile fd = none) : (s.setOfile i fd (some f)).fds = f ::ₘ s.fds := by
  have h := s.fds_setOfile i fd (some f)
  rwa [hfd, refOf, refOf, add_zero, add_comm s.fds, singleton_add] at h

theorem Sys.fds_setOfile_none {i : Fin nproc} {fd : Fin nofile} {f : Fin nfile}
    (hfd : (s.proc i).ofile fd = some f) : s.fds = f ::ₘ (s.setOfile i fd none).fds := by
  have h := s.fds_setOfile i fd none
  rw [hfd, refOf, refOf, add_zero] at h
  rw [← h, add_comm, singleton_add]

/-- `f->ref = r` -/
def Sys.setRef (s : Sys) (f : Fin nfile) (r : ℕ) : Sys :=
  { s with file := update s.file f { s.file f with ref := r } }

theorem Sys.setRef_type (s : Sys) (f : Fin nfile) (r : ℕ) (g : Fin nfile) :
    ((s.setRef f r).file g).type = (s.file g).type := by
  unfold Sys.setRef
  by_cases hg : g = f
  · simp [hg]
  · simp [hg]

theorem Sys.FilesOk.setRef (h : s.FilesOk refs) {f : Fin nfile} {r : ℕ} {refs' : Multiset (Fin nfile)}
    (hr : r = refs'.count f) (hrest : ∀ g, g ≠ f → refs'.count g = refs.count g)
    (hz : r = 0 → (s.file f).type = .none) : (s.setRef f r).FilesOk refs' := by
  have htype := s.setRef_type f r
  have href : ∀ g, ((s.setRef f r).file g).ref = if g = f then r else (s.file g).ref := by
    intro g
    unfold Sys.setRef
    by_cases hg : g = f
    · simp [hg]
    · simp [hg]
  refine ⟨fun g => ?_, fun g hg => ?_, ?_, ?_, ?_⟩
  · rw [href g]
    split_ifs with he
    · rw [he, hr]
    · rw [hrest g he, h.ref g]
  · rw [href g] at hg
    rw [htype g]
    split_ifs at hg with he
    · rw [he]
      exact hz hg
    · exact h.closed g hg
  · intro g pi w hg
    exact h.isOpen g pi w (htype g ▸ hg)
  · intro g g' pi w hg hg'
    exact h.unique g g' pi w (htype g ▸ hg) (htype g' ▸ hg')
  · intro g pi w hg hopen
    obtain ⟨g', hg'⟩ := h.other g pi w (htype g ▸ hg) hopen
    exact ⟨g', (htype g').trans hg'⟩

/-- `f->type = t` -/
def Sys.setType (s : Sys) (f : Fin nfile) (t : FdType) : Sys :=
  { s with file := update s.file f { s.file f with type := t } }

section SetType
variable {f : Fin nfile} {t : FdType}

theorem Sys.setType_type (g : Fin nfile) :
    ((s.setType f t).file g).type = if g = f then t else (s.file g).type := by
  unfold Sys.setType
  by_cases hg : g = f
  · simp [hg]
  · simp [hg]

theorem Sys.setType_ref (g : Fin nfile) : ((s.setType f t).file g).ref = (s.file g).ref := by
  unfold Sys.setType
  by_cases hg : g = f
  · simp [hg]
  · simp [hg]

theorem Sys.setType_pipe (hold : (s.file f).type.pipes = ∅) (hnew : t.pipes = ∅) {g : Fin nfile} {pi : Page}
    {w : Bool} : ((s.setType f t).file g).type = .pipe pi w ↔ (s.file g).type = .pipe pi w := by
  rw [Sys.setType_type]
  split_ifs with hg
  · rw [hg]
    constructor
    · rintro rfl
      simp [FdType.pipes] at hnew
    · intro h
      simp [h, FdType.pipes] at hold
  · rfl

theorem Sys.FilesOk.setType (h : s.FilesOk refs) (hold : (s.file f).type.pipes = ∅) (hnew : t.pipes = ∅)
    (hz : (s.file f).ref = 0 → t = .none) : (s.setType f t).FilesOk refs := by
  refine ⟨fun g => ?_, fun g hg => ?_, ?_, ?_, ?_⟩
  · rw [Sys.setType_ref]
    exact h.ref g
  · rw [Sys.setType_ref] at hg
    rw [Sys.setType_type]
    split_ifs with he
    · exact hz (he ▸ hg)
    · exact h.closed g hg
  all_goals simp only [Sys.setType_pipe hold hnew]
  · exact h.isOpen
  · exact h.unique
  · exact h.other

theorem Sys.setType_move (hold : (s.file f).type.pipes = ∅) (hnew : t.pipes = ∅) (hf : f ∉ refs) :
    s.FilesMove refs (s.setType f t) := by
  refine ⟨?_, rfl, fun g hg => ?_⟩
  · have hpipes : (s.setType f t).pipes = s.pipes := by
      ext pi
      simp only [Sys.mem_pipes, Sys.setType_pipe hold hnew]
    rw [hpipes]
    exact .refl _ _
  · rw [Sys.setType_type, if_neg]
    rintro rfl
    exact hf hg

end SetType

theorem wp_filealloc (h : s.FilesOk refs) {Q : Option (Fin nfile) → Sys → Prop}
    (hnone : Q none s)
    (hsome : ∀ f s', s'.FilesOk (f ::ₘ refs) → (s.file f).type = .none → f ∉ refs →
      (∀ g, (s'.file g).type = (s.file g).type) → s'.mem = s.mem → s.SameButFiles s' →
      Q (some f) s') :
    Wp E filealloc s Q := by
  unfold filealloc
  simp only [wp_bind, wp_get]
  cases hfind : (List.finRange nfile).find? fun f => decide ((s.file f).ref = 0) with
  | none =>
    rw [wp_pure]
    exact hnone
  | some f =>
    have hz : (s.file f).ref = 0 := by simpa using List.find?_some hfind
    have href := h.ref f
    simp only [wp_bind, wp_setFile, wp_pure]
    refine hsome f (s.setRef f 1) (h.setRef ?_ ?_ (by simp)) (h.closed f hz) ?_ (s.setRef_type f 1)
      rfl rfl
    · rw [count_cons_self]
      omega
    · exact fun g hg => Multiset.count_cons_of_ne hg _
    · rw [← Multiset.count_eq_zero]
      omega

theorem wp_filedup (h : s.FilesOk refs) {f : Fin nfile} (hf : 0 < (s.file f).ref)
    {Q : Unit → Sys → Prop}
    (hQ : ∀ s', s'.FilesOk (f ::ₘ refs) → s.FilesMove refs s' → s'.mem = s.mem → Q () s') :
    Wp E (filedup f) s Q := by
  have href := h.ref f
  unfold filedup
  simp only [wp_bind, wp_get]
  rw [if_neg (by omega), wp_setFile]
  refine hQ (s.setRef f ((s.file f).ref + 1)) (h.setRef ?_ ?_ (by simp))
    (.of_types (s.setRef_type f _) rfl rfl) rfl
  · rw [count_cons_self]
    omega
  · exact fun g hg => Multiset.count_cons_of_ne hg _

/-- The last reference to an end of a pipe goes: its file is free, and the end is closed. -/
def Sys.closeEnd (s : Sys) (f : Fin nfile) (pi : Page) (w : Bool) : Sys :=
  { s with
    file := update s.file f ⟨0, .none⟩
    pipe := update s.pipe pi
      (if w then { s.pipe pi with writeopen := false } else { s.pipe pi with readopen := false }) }

section CloseEnd
variable {f : Fin nfile} {pi : Page} {w : Bool}

theorem Sys.closeEnd_type (g : Fin nfile) :
    ((s.closeEnd f pi w).file g).type = if g = f then .none else (s.file g).type := by
  unfold Sys.closeEnd
  by_cases hg : g = f
  · simp [hg]
  · simp [hg]

theorem Sys.closeEnd_isOpen (pa : Page) (v : Bool) : ((s.closeEnd f pi w).pipe pa).isOpen v =
    if pa = pi ∧ v = w then false else (s.pipe pa).isOpen v := by
  unfold Sys.closeEnd
  by_cases hp : pa = pi
  · subst hp
    cases w <;> cases v <;> simp [Pipe.isOpen]
  · simp [hp]

theorem Sys.FilesOk.closeEnd (h : s.FilesOk (f ::ₘ refs)) (hone : (s.file f).ref = 1)
    (ht : (s.file f).type = .pipe pi w) : (s.closeEnd f pi w).FilesOk refs := by
  have href := h.ref f
  rw [count_cons_self] at href
  have hold : ∀ {g pa v}, ((s.closeEnd f pi w).file g).type = .pipe pa v →
      g ≠ f ∧ (s.file g).type = .pipe pa v := by
    intro g pa v hg
    rw [Sys.closeEnd_type] at hg
    split_ifs at hg with he
    exact ⟨he, hg⟩
  -- no other file is the end that is closed
  have hends : ∀ {g pa v}, g ≠ f → (s.file g).type = .pipe pa v → ¬ (pa = pi ∧ v = w) := by
    rintro g pa v hne hg ⟨rfl, rfl⟩
    exact hne (h.unique g f _ _ hg ht)
  refine ⟨fun g => ?_, fun g hg => ?_, ?_, ?_, ?_⟩
  · show (update s.file f ⟨0, .none⟩ g).ref = _
    by_cases he : g = f
    · subst he
      rw [update_self]
      show 0 = refs.count g
      omega
    · rw [update_of_ne he, h.ref g, Multiset.count_cons_of_ne he]
  · rw [Sys.closeEnd_type]
    split_ifs with he
    · rfl
    · exact h.closed g (by simpa [Sys.closeEnd, he] using hg)
  · intro g pa v hg
    obtain ⟨hne, hg⟩ := hold hg
    rw [Sys.closeEnd_isOpen, if_neg (hends hne hg)]
    exact h.isOpen g pa v hg
  · intro g g' pa v hg hg'
    exact h.unique g g' pa v (hold hg).2 (hold hg').2
  · intro g pa v hg hopen
    obtain ⟨hne, hg⟩ := hold hg
    rw [Sys.closeEnd_isOpen] at hopen
    split_ifs at hopen with he
    obtain ⟨g', hg'⟩ := h.other g pa v hg hopen
    refine ⟨g', ?_⟩
    rw [Sys.closeEnd_type, if_neg, hg']
    rintro rfl
    rw [hg'] at ht
    exact he (by simpa using ht)

theorem Sys.FilesOk.closeEnd_pipes (h : s.FilesOk (f ::ₘ refs)) (ht : (s.file f).type = .pipe pi w) :
    (s.closeEnd f pi w).pipes = if (s.pipe pi).isOpen (!w) then s.pipes else s.pipes.erase pi := by
  have hmem : ∀ pa, pa ∈ (s.closeEnd f pi w).pipes ↔ ∃ g v, g ≠ f ∧ (s.file g).type = .pipe pa v := by
    intro pa
    rw [Sys.mem_pipes]
    simp only [Sys.closeEnd_type]
    constructor
    · rintro ⟨g, v, hg⟩
      split_ifs at hg with he
      exact ⟨g, v, he, hg⟩
    · rintro ⟨g, v, he, hg⟩
      exact ⟨g, v, by rw [if_neg he, hg]⟩
  ext pa
  rw [hmem]
  by_cases hp : pa = pi
  · subst hp
    split_ifs with hopen
    · obtain ⟨g, hg⟩ := h.other f pa w ht hopen
      refine ⟨fun _ => Sys.mem_pipes.mpr ⟨f, w, ht⟩, fun _ => ⟨g, !w, ?_, hg⟩⟩
      rintro rfl
      rw [hg] at ht
      simp at ht
    · refine ⟨?_, fun hmem => absurd hmem (Finset.notMem_erase _ _)⟩
      rintro ⟨g, v, hne, hg⟩
      cases Bool.eq_or_eq_not v w with
      | inl hv => exact absurd (h.unique g f pa w (hv ▸ hg) ht) hne
      | inr hv => exact absurd (h.isOpen g pa (!w) (hv ▸ hg)) hopen
  · have hiff : (∃ g v, g ≠ f ∧ (s.file g).type = .pipe pa v) ↔ pa ∈ s.pipes := by
      rw [Sys.mem_pipes]
      constructor
      · rintro ⟨g, v, -, hg⟩
        exact ⟨g, v, hg⟩
      · rintro ⟨g, v, hg⟩
        refine ⟨g, v, ?_, hg⟩
        rintro rfl
        rw [hg] at ht
        exact hp (FdType.pipe.inj ht).1
    rw [hiff]
    split_ifs
    · rfl
    · rw [Finset.mem_erase, and_iff_right hp]

end CloseEnd

/-- `fileclose` takes a reference back, and with the last one of a pipe its page. -/
theorem wp_fileclose {f : Fin nfile} (h : s.FilesOk (f ::ₘ refs)) {Q : Unit → Sys → Prop}
    (hQ : ∀ s', s'.FilesOk refs → s.FilesMove refs s' → Q () s') : Wp E (fileclose f) s Q := by
  have href := h.ref f
  rw [count_cons_self] at href
  have hcount : ∀ g, g ≠ f → refs.count g = (f ::ₘ refs).count g := fun g hg =>
    (Multiset.count_cons_of_ne hg _).symm
  unfold fileclose
  simp only [wp_bind, wp_get]
  rw [if_neg (by omega)]
  split_ifs with hmore
  · rw [wp_setFile]
    exact hQ (s.setRef f ((s.file f).ref - 1)) (h.setRef (by omega) hcount (by omega))
      (.of_types (s.setRef_type f _) rfl rfl)
  · have hone : (s.file f).ref = 1 := by omega
    -- a file that is no end of a pipe
    have hplain : (s.file f).type.pipes = ∅ →
        Q () { s with file := update s.file f ⟨0, .none⟩ } := by
      intro ht
      have heq : { s with file := update s.file f ⟨0, .none⟩ } = (s.setType f .none).setRef f 0 := by
        simp [Sys.setType, Sys.setRef]
      have hnone : ((s.setType f .none).file f).type = .none := by rw [Sys.setType_type, if_pos rfl]
      have hmove : s.FilesMove refs (s.setType f .none) :=
        Sys.setType_move ht rfl (Multiset.count_eq_zero.mp (by omega))
      rw [heq]
      exact hQ _ ((h.setType ht rfl fun _ => rfl).setRef (by omega) hcount fun _ => hnone)
        (hmove.trans (.of_types (Sys.setRef_type _ f _) rfl rfl))
    cases ht : (s.file f).type with
    | none | inode | device =>
      simp only [wp_bind, wp_setFile, wp_pure]
      exact hplain (by rw [ht]; rfl)
    | pipe pi w =>
      have hok := h.closeEnd hone ht
      have hpipes := h.closeEnd_pipes ht
      have hmem : pi ∈ s.pipes := Sys.mem_pipes.mpr ⟨f, w, ht⟩
      have htypes : ∀ g ∈ refs, ((s.closeEnd f pi w).file g).type = (s.file g).type := by
        intro g hg
        have hpos := Multiset.count_pos.mpr hg
        rw [Sys.closeEnd_type, if_neg (by rintro rfl; omega)]
      unfold pipeclose
      simp only [wp_bind, wp_setFile, wp_get, wp_set]
      have hother : (!(if w = true then { s.pipe pi with writeopen := false }
          else { s.pipe pi with readopen := false } : Pipe).readopen &&
          !(if w = true then { s.pipe pi with writeopen := false }
            else { s.pipe pi with readopen := false } : Pipe).writeopen) =
          !(s.pipe pi).isOpen (!w) := by
        cases w <;> simp [Pipe.isOpen]
      rw [hother]
      cases hopen : (s.pipe pi).isOpen (!w) with
      | true =>
        rw [hopen, if_pos rfl] at hpipes
        rw [Bool.not_true, if_neg (by simp), wp_pure]
        refine hQ (s.closeEnd f pi w) hok ⟨?_, rfl, htypes⟩
        rw [hpipes]
        exact .refl _ _
      | false =>
        rw [hopen, if_neg (by simp)] at hpipes
        rw [Bool.not_false, if_pos rfl, wp_onMem]
        apply wp_kfree
        intro m' _ _ hm'
        refine hQ { s.closeEnd f pi w with mem := m' } (hok.congr rfl rfl) ⟨?_, rfl, htypes⟩
        · show Mem.Moves s.pipes.val (s.closeEnd f pi w).pipes.val s.mem m'
          have hcons : s.pipes.val = (s.pipes.erase pi).val + {pi} := by
            rw [Finset.erase_val, add_comm, singleton_add,
              Multiset.cons_erase (Finset.mem_val.mpr hmem)]
          rw [hpipes, hcons]
          exact hm'.shrink _

/-- A new pipe in page `pi` with its two ends. -/
def Sys.newPipe (s : Sys) (f₀ f₁ : Fin nfile) (pi : Page) : Sys :=
  { s with
    pipe := update s.pipe pi ⟨true, true⟩
    file := update (update s.file f₀ { s.file f₀ with type := .pipe pi false }) f₁
      { s.file f₁ with type := .pipe pi true } }

section NewPipe
variable {f₀ f₁ : Fin nfile} {pi : Page}

theorem Sys.newPipe_type (hne : f₀ ≠ f₁) (g : Fin nfile) : ((s.newPipe f₀ f₁ pi).file g).type =
    if g = f₁ then .pipe pi true else if g = f₀ then .pipe pi false else (s.file g).type := by
  unfold Sys.newPipe
  by_cases h₁ : g = f₁
  · simp [h₁]
  · by_cases h₀ : g = f₀
    · simp [h₀, hne]
    · simp [h₀, h₁]

theorem Sys.newPipe_ref (g : Fin nfile) : ((s.newPipe f₀ f₁ pi).file g).ref = (s.file g).ref := by
  unfold Sys.newPipe
  by_cases h₁ : g = f₁
  · simp [h₁]
  · by_cases h₀ : g = f₀
    · subst h₀
      simp [h₁]
    · simp [h₀, h₁]

theorem Sys.FilesOk.newPipe (h : s.FilesOk refs) (hne : f₀ ≠ f₁) (hr₀ : 0 < (s.file f₀).ref)
    (hr₁ : 0 < (s.file f₁).ref) (ht₀ : (s.file f₀).type = .none) (ht₁ : (s.file f₁).type = .none)
    (hpi : pi ∉ s.pipes) : (s.newPipe f₀ f₁ pi).FilesOk refs := by
  -- an end in the new state is one of the new ones, or an old one of another pipe
  have hcases : ∀ {g pa w}, ((s.newPipe f₀ f₁ pi).file g).type = .pipe pa w →
      (pa = pi ∧ g = if w then f₁ else f₀) ∨ (pa ≠ pi ∧ (s.file g).type = .pipe pa w) := by
    intro g pa w hg
    rw [Sys.newPipe_type hne] at hg
    split_ifs at hg with h₁ h₀
    · obtain ⟨rfl, rfl⟩ := FdType.pipe.inj hg
      exact .inl ⟨rfl, h₁⟩
    · obtain ⟨rfl, rfl⟩ := FdType.pipe.inj hg
      exact .inl ⟨rfl, h₀⟩
    · refine .inr ⟨?_, hg⟩
      rintro rfl
      exact hpi (Sys.mem_pipes.mpr ⟨g, w, hg⟩)
  refine ⟨fun g => ?_, fun g hg => ?_, ?_, ?_, ?_⟩
  · rw [Sys.newPipe_ref]
    exact h.ref g
  · rw [Sys.newPipe_ref] at hg
    rw [Sys.newPipe_type hne, if_neg, if_neg]
    · exact h.closed g hg
    · rintro rfl
      omega
    · rintro rfl
      omega
  · intro g pa w hg
    rcases hcases hg with ⟨rfl, -⟩ | ⟨hp, hg⟩
    · cases w <;> simp [Sys.newPipe, Pipe.isOpen]
    · simpa [Sys.newPipe, hp] using h.isOpen g pa w hg
  · intro g g' pa w hg hg'
    rcases hcases hg with ⟨hp, hg⟩ | ⟨hp, hg⟩
    · rcases hcases hg' with ⟨-, hg'⟩ | ⟨hp', -⟩
      · rw [hg, hg']
      · exact absurd hp hp'
    · rcases hcases hg' with ⟨hp', -⟩ | ⟨-, hg'⟩
      · exact absurd hp' hp
      · exact h.unique g g' pa w hg hg'
  · intro g pa w hg hopen
    rcases hcases hg with ⟨rfl, -⟩ | ⟨hp, hg⟩
    · refine ⟨if w then f₀ else f₁, ?_⟩
      rw [Sys.newPipe_type hne]
      cases w <;> simp [hne]
    · obtain ⟨g', hg'⟩ := h.other g pa w hg (by simpa [Sys.newPipe, hp] using hopen)
      refine ⟨g', ?_⟩
      rw [Sys.newPipe_type hne, if_neg, if_neg, hg']
      · rintro rfl
        simp [ht₀] at hg'
      · rintro rfl
        simp [ht₁] at hg'

theorem Sys.newPipe_pipes (hne : f₀ ≠ f₁) (ht₀ : (s.file f₀).type = .none)
    (ht₁ : (s.file f₁).type = .none) : (s.newPipe f₀ f₁ pi).pipes = insert pi s.pipes := by
  ext pa
  rw [Finset.mem_insert, Sys.mem_pipes, Sys.mem_pipes]
  simp only [Sys.newPipe_type hne]
  constructor
  · rintro ⟨g, w, hg⟩
    split_ifs at hg with h₁ h₀
    · exact .inl (FdType.pipe.inj hg).1.symm
    · exact .inl (FdType.pipe.inj hg).1.symm
    · exact .inr ⟨g, w, hg⟩
  · rintro (rfl | ⟨g, w, hg⟩)
    · exact ⟨f₁, true, by rw [if_pos rfl]⟩
    · refine ⟨g, w, ?_⟩
      rw [if_neg, if_neg, hg]
      · rintro rfl
        simp [ht₀] at hg
      · rintro rfl
        simp [ht₁] at hg

end NewPipe

theorem wp_pipeinit {f₀ f₁ : Fin nfile} (h : s.FilesOk (f₁ ::ₘ f₀ ::ₘ refs)) (hne : f₀ ≠ f₁)
    (ht₀ : (s.file f₀).type = .none) (ht₁ : (s.file f₁).type = .none)
    (hf₀ : f₀ ∉ refs) (hf₁ : f₁ ∉ refs)
    (hnd : ((s.mem.free : Multiset Page) + s.pipes.val).Nodup) {Q : Bool → Sys → Prop}
    (hfail : ∀ s', s'.FilesOk refs → s.FilesMove refs s' → Q false s')
    (hdone : ∀ s', s'.FilesOk (f₁ ::ₘ f₀ ::ₘ refs) → s.FilesMove refs s' → Q true s') :
    Wp E (pipeinit f₀ f₁) s Q := by
  have hr₁ : 0 < (s.file f₁).ref := by
    rw [h.ref f₁, count_cons_self]
    omega
  have hr₀ : 0 < (s.file f₀).ref := by
    rw [h.ref f₀, Multiset.count_cons_of_ne hne, count_cons_self]
    omega
  unfold pipeinit
  simp only [wp_bind, wp_onMem]
  apply wp_kalloc
  · intro m₁ hm₁ _ _
    have hm₁ := hm₁.grow s.pipes.val
    rw [add_zero] at hm₁
    have h' : { s with mem := m₁ }.FilesOk (f₀ ::ₘ f₁ ::ₘ refs) := by
      rw [cons_swap]
      exact h.congr rfl rfl
    simp only [wp_bind]
    refine wp_fileclose h' ?_
    intro s₂ h₂ hm₂
    refine wp_fileclose h₂ ?_
    intro s₃ h₃ hm₃
    rw [wp_pure]
    have hm₂ := (hm₂.weaken fun g hg => mem_cons_of_mem hg).trans hm₃
    exact hfail s₃ h₃ ⟨hm₁.trans hm₂.moves, hm₂.same, hm₂.types⟩
  · intro pi m₁ hfree hm₁ _
    have hpi : pi ∉ s.pipes := by
      intro hmem
      have hdisj := (nodup_add.mp hnd).2.2
      exact disjoint_left.mp hdisj (by simp [hfree]) (Finset.mem_val.mpr hmem)
    have hs' : { s.newPipe f₀ f₁ pi with mem := m₁ }.FilesOk (f₁ ::ₘ f₀ ::ₘ refs) :=
      (h.newPipe hne hr₀ hr₁ ht₀ ht₁ hpi).congr rfl rfl
    simp only [wp_bind, wp_modify, wp_get, wp_setFile, wp_pure]
    refine hdone { s.newPipe f₀ f₁ pi with mem := m₁ } hs' ⟨?_, rfl, fun g hg => ?_⟩
    · show Mem.Moves s.pipes.val (s.newPipe f₀ f₁ pi).pipes.val s.mem m₁
      rw [Sys.newPipe_pipes hne ht₀ ht₁, Finset.insert_val_of_notMem hpi, ← singleton_add,
        add_comm]
      exact hm₁.grow _
    · show ((s.newPipe f₀ f₁ pi).file g).type = _
      rw [Sys.newPipe_type hne, if_neg (by rintro rfl; exact hf₁ hg),
        if_neg (by rintro rfl; exact hf₀ hg)]

theorem wp_pipealloc (h : s.FilesOk refs) (hnd : ((s.mem.free : Multiset Page) + s.pipes.val).Nodup)
    {Q : Option (Fin nfile × Fin nfile) → Sys → Prop}
    (hnone : ∀ s', s'.FilesOk refs → s.FilesMove refs s' → Q none s')
    (hsome : ∀ f₀ f₁ s', s'.FilesOk (f₁ ::ₘ f₀ ::ₘ refs) → s.FilesMove refs s' →
      Q (some (f₀, f₁)) s') :
    Wp E pipealloc s Q := by
  unfold pipealloc
  rw [wp_bind]
  refine wp_filealloc h ?_ ?_
  · rw [wp_pure]
    exact hnone s h (.of_types (fun _ => rfl) rfl rfl)
  · intro f₀ s₁ h₁ ht₀ hnot₀ htype₁ hm₁ hsame₁
    have hmove₁ : s.FilesMove refs s₁ := .of_types htype₁ hm₁ hsame₁
    simp only [wp_bind]
    refine wp_filealloc h₁ ?_ ?_
    · simp only [wp_bind, wp_pure]
      refine wp_fileclose h₁ ?_
      intro s₂ h₂ hm₂
      exact hnone s₂ h₂ (hmove₁.trans hm₂)
    · intro f₁ s₂ h₂ ht₁ hnot htype₂ hm₂ hsame₂
      rw [mem_cons, not_or] at hnot
      have hpipes : s₂.pipes = s.pipes := (Sys.pipes_congr htype₂).trans (Sys.pipes_congr htype₁)
      have hmem : s₂.mem = s.mem := hm₂.trans hm₁
      have hmove₂ := hmove₁.trans (.of_types htype₂ hm₂ hsame₂)
      rw [← htype₂] at ht₁
      rw [← htype₁, ← htype₂] at ht₀
      have hnd' : ((s₂.mem.free : Multiset Page) + s₂.pipes.val).Nodup := by rwa [hpipes, hmem]
      simp only [wp_bind, wp_pure]
      refine wp_pipeinit h₂ (Ne.symm hnot.1) ht₀ ht₁ hnot₀ hnot.2 hnd' ?_ ?_
      · intro s₃ h₃ hm₃
        exact hnone s₃ h₃ (hmove₂.trans hm₃)
      · intro s₃ h₃ hm₃
        exact hsome f₀ f₁ s₃ h₃ (hmove₂.trans hm₃)

end Xv6.Vm
