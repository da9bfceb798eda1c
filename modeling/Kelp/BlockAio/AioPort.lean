import Kelp.BlockAio.Aio

/-!
# The C++ port of the I/O layer against the C file

`blockaio.cpp` repeats `submit_read`, `submit_write` and `check_completed` of `blockaio.c`
with two changes: a context is allocated with `new WriteContext` and released with
`delete ctx`, and where `malloc` would return `NULL`, `new` throws `std::bad_alloc`, which
nothing catches.  The states of the two files then differ only in the allocator each context
records, which `AioState.retag` rewrites.

* `submitWriteFrom_retag`, `submitReadFrom_retag`: after the context's allocation, the two
  files' submits have the same outcome up to that allocator, from any state where the
  library's blocks are fresh.
* `checkCompletedWith_retag`: from a held state, both files' `check_completed` return the
  same sum and release the same blocks.  This one needs the invariant: `free` in
  `blockaio.c` would release a context found at a request's buffer, and in `blockaio.cpp` it
  would not.
* `exec_retag` and `Run.retag`: a call, and then a run, of one file from a held state, with
  every context's allocation succeeding, is a call or a run of the other file with the same
  answers and the same return values.
* `run_cpp_iff`: from the start, the runs of `blockaio.cpp` are exactly the runs of
  `blockaio.c` in which every context's allocation succeeds.  Where one fails,
  `submit_write` of `blockaio.c` returns `-1` and the run goes on, and its `submit_read`
  writes through `NULL`; the port ends with `abort()`.
-/

namespace Kelp.BlockAio

/-! ## Relabelling the allocator of contexts -/

/-- A cell with its context's allocator replaced by `alloc`. -/
def Cell.retag (alloc : Alloc) : Cell → Cell
  | .writeContext _ startPage numPages buf => .writeContext alloc startPage numPages buf
  | c => c

/-- The heap with every context's allocator replaced by `alloc`. -/
def retagHeap (alloc : Alloc) (heap : Nat → Option Cell) : Nat → Option Cell :=
  fun p => (heap p).map (Cell.retag alloc)

/-- A state of one file read as a state of the other: every context's allocator replaced by
`alloc`. -/
def AioState.retag (alloc : Alloc) (s : AioState) : AioState :=
  ⟨retagHeap alloc s.heap, s.inflight⟩

/-- The outcome with the state it leaves relabelled. -/
def Outcome.retag {α : Type} (alloc : Alloc) : Outcome α → Outcome α
  | .ret a s => .ret a (s.retag alloc)
  | o => o

/-- The allocation of a submit's context succeeds. -/
def Call.MallocOk : Call → Prop
  | .submitWrite _ _ _ env => env.malloc ≠ 0
  | .submitRead _ _ _ env => env.malloc ≠ 0
  | .checkCompleted _ => True

instance : (c : Call) → Decidable c.MallocOk
  | .submitWrite _ _ _ env => inferInstanceAs (Decidable (env.malloc ≠ 0))
  | .submitRead _ _ _ env => inferInstanceAs (Decidable (env.malloc ≠ 0))
  | .checkCompleted _ => inferInstanceAs (Decidable True)

@[simp] theorem AioState.retag_heap (alloc : Alloc) (s : AioState) :
    (s.retag alloc).heap = retagHeap alloc s.heap := rfl

@[simp] theorem AioState.retag_inflight (alloc : Alloc) (s : AioState) :
    (s.retag alloc).inflight = s.inflight := rfl

@[simp] theorem retagHeap_eq_none {alloc : Alloc} {heap : Nat → Option Cell} {p : Nat} :
    retagHeap alloc heap p = none ↔ heap p = none :=
  Option.map_eq_none'

theorem Cell.retag_retag (alloc alloc' : Alloc) (c : Cell) :
    (c.retag alloc').retag alloc = c.retag alloc := by
  cases c <;> rfl

theorem retagHeap_retagHeap (alloc alloc' : Alloc) (heap : Nat → Option Cell) :
    retagHeap alloc (retagHeap alloc' heap) = retagHeap alloc heap := by
  funext p
  simp only [retagHeap, Option.map_map, Function.comp_def, Cell.retag_retag]

theorem retagHeap_update (alloc : Alloc) (heap : Nat → Option Cell) (p : Nat) (c : Option Cell) :
    retagHeap alloc (Function.update heap p c) =
      Function.update (retagHeap alloc heap) p (c.map (Cell.retag alloc)) :=
  funext fun q => Function.apply_update (fun _ o => Option.map (Cell.retag alloc) o) heap p c q

theorem retagHeap_acceptHeap (alloc alloc' : Alloc) (heap : Nat → Option Cell)
    (startPage numPages : Int) (r : Iocb) :
    retagHeap alloc' (acceptHeap heap alloc startPage numPages r) =
      acceptHeap (retagHeap alloc' heap) alloc' startPage numPages r := by
  simp only [acceptHeap, retagHeap_update]
  rfl

theorem ctxPages_retagHeap (alloc : Alloc) (heap : Nat → Option Cell) :
    ctxPages (retagHeap alloc heap) = ctxPages heap := by
  funext p
  unfold ctxPages retagHeap
  rcases heap p with _ | (_ | _) <;> rfl

theorem Outcome.map_retag {α β : Type} (f : α → β) (alloc : Alloc) (o : Outcome α) :
    (o.retag alloc).map f = (o.map f).retag alloc := by
  cases o <;> rfl

theorem SubmitEnv.lawful_retag {alloc : Alloc} {s : AioState} {env : SubmitEnv} :
    env.Lawful (s.retag alloc) ↔ env.Lawful s := by
  simp [SubmitEnv.Lawful]

theorem Call.lawful_retag {alloc : Alloc} {s : AioState} :
    ∀ {c : Call}, c.Lawful (s.retag alloc) ↔ c.Lawful s
  | .submitWrite .. | .submitRead .. => SubmitEnv.lawful_retag
  | .checkCompleted _ => Iff.rfl

/-! ## The held heaps of the two files -/

namespace Holds

variable {lang : Lang} {heap : Nat → Option Cell} {rs : List Iocb}

/-- The requests a heap holds for one file, the other file's heap holds with the contexts
relabelled. -/
theorem retag (h : Holds lang heap rs) (lang' : Lang) :
    Holds lang' (retagHeap lang'.ctxAlloc heap) rs where
  owned r hr := by
    obtain ⟨startPage, numPages, h1, h2, h3, h4, h5⟩ := h.owned r hr
    exact ⟨startPage, numPages, by simp [retagHeap, h1, Cell.retag], h2, h3, h4,
      by simp [retagHeap, h5, Cell.retag]⟩
  nodup := h.nodup
  nonnull := h.nonnull
  live p hp := h.live p (by simpa using hp)

/-- Two held heaps for the same requests whose contexts agree up to the allocator agree up to
the allocator everywhere: a buffer's contents are fixed by its request and its context. -/
theorem eq_retag (h : Holds lang heap rs) {lang' : Lang} {heap' : Nat → Option Cell}
    (h' : Holds lang' heap' rs)
    (hctx : ∀ r ∈ rs, heap' r.data = retagHeap lang'.ctxAlloc heap r.data) :
    heap' = retagHeap lang'.ctxAlloc heap := by
  funext p
  by_cases hp : p ∈ blocks rs
  · obtain ⟨r, hr, rfl | rfl⟩ := mem_blocks.mp hp
    · exact hctx r hr
    obtain ⟨startPage, numPages, h1, -, -, -, h5⟩ := h.owned r hr
    obtain ⟨startPage', numPages', h1', -, -, -, h5'⟩ := h'.owned r hr
    have hsame := hctx r hr
    simp only [h1, h1', retagHeap, Option.map_some', Cell.retag, Option.some.injEq,
      Cell.writeContext.injEq] at hsame
    simp [retagHeap, h5, h5', hsame.2.1, Cell.retag]
  · have h0 : heap p = none := Classical.byContradiction fun hne => hp (h.live p hne)
    have h0' : heap' p = none := Classical.byContradiction fun hne => hp (h'.live p hne)
    simp [retagHeap, h0, h0']

/-- Relabelling a held heap with its own file's allocator changes nothing. -/
theorem retagHeap_self (h : Holds lang heap rs) : retagHeap lang.ctxAlloc heap = heap :=
  (h.eq_retag h fun r hr => by
    obtain ⟨_, _, h1, -⟩ := h.owned r hr
    simp [retagHeap, h1, Cell.retag]).symm

end Holds

/-! ## One call in either file -/

theorem exec_submitWrite {lang : Lang} {s : AioState} {fd startPage numPages : Int}
    {env : SubmitEnv} (hm : env.malloc ≠ 0) :
    (Call.submitWrite fd startPage numPages env).exec lang s =
      submitWriteFrom lang s fd startPage numPages env env.malloc := by
  cases lang <;> simp [Call.exec, BlockAio.submitWrite, Cpp.submitWrite, hm]

theorem exec_submitRead {lang : Lang} {s : AioState} {fd startPage numPages : Int}
    {env : SubmitEnv} (hm : env.malloc ≠ 0) :
    (Call.submitRead fd startPage numPages env).exec lang s =
      (submitReadFrom lang s fd startPage numPages env env.malloc).map fun _ => 0 := by
  cases lang <;> simp [Call.exec, BlockAio.submitRead, Cpp.submitRead, hm]

theorem exec_checkCompleted (lang : Lang) (s : AioState) (events : List Nat) :
    (Call.checkCompleted events).exec lang s = checkCompletedWith lang s events := by
  cases lang <;> rfl

/-- The submit of either file after its context's allocation, on fresh blocks: the other
file's submit from the relabelled state has the relabelled outcome. -/
theorem submitWriteFrom_retag (lang lang' : Lang) {s : AioState} {fd startPage numPages : Int}
    {env : SubmitEnv} (henv : env.Lawful s) (hm : env.malloc ≠ 0) :
    submitWriteFrom lang' (s.retag lang'.ctxAlloc) fd startPage numPages env env.malloc =
      (submitWriteFrom lang s fd startPage numPages env env.malloc).retag lang'.ctxAlloc := by
  by_cases hsize : InInt (pageSize * numPages)
  swap
  · simp [submitWriteFrom, intMul_of_not_inInt hsize, Outcome.retag]
  have henv' : env.Lawful (s.retag lang'.ctxAlloc) := SubmitEnv.lawful_retag.mpr henv
  obtain ⟨hctx, hbuf, hsub⟩ := henv
  obtain ⟨hctx', hbuf', -⟩ := henv'
  have hret : InInt (-env.ioSubmit) := by unfold InInt; omega
  rw [submitWriteFrom_eq (hctx' hm) hm hbuf' hsize hret,
    submitWriteFrom_eq (hctx hm) hm hbuf hsize hret]
  rcases env.memalign with _ | buffer <;> rcases intMul startPage pageSize with _ | offset
  all_goals simp only [Outcome.retag]
  split_ifs <;> simp [AioState.retag, retagHeap_acceptHeap]

theorem submitReadFrom_retag (lang lang' : Lang) (s : AioState) (fd startPage numPages : Int)
    (env : SubmitEnv) (ctx : Nat) :
    submitReadFrom lang' (s.retag lang'.ctxAlloc) fd startPage numPages env ctx =
      (submitReadFrom lang s fd startPage numPages env ctx).retag lang'.ctxAlloc := by
  by_cases hsize : InInt (pageSize * numPages)
  swap
  · simp [submitReadFrom, intMul_of_not_inInt hsize, Outcome.retag]
  rw [submitReadFrom_eq hsize, submitReadFrom_eq hsize]
  rcases env.memalign with _ | buffer <;> rcases intMul startPage pageSize with _ | offset
  all_goals simp only [Outcome.retag]
  split_ifs <;> simp [AioState.retag, retagHeap_acceptHeap, Outcome.retag]

/-- `check_completed` of either file from a held state, on a lawful answer of
`io_getevents`: the other file's from the relabelled state returns the same sum and leaves
the relabelled state. -/
theorem checkCompletedWith_retag {lang : Lang} (lang' : Lang) {s : AioState}
    {events : List Nat} (h : Holds lang s.heap s.inflight)
    (he : (Call.checkCompleted events).Lawful s) :
    checkCompletedWith lang' (s.retag lang'.ctxAlloc) events =
      (checkCompletedWith lang s events).retag lang'.ctxAlloc := by
  obtain ⟨hnd, hlen, hsub⟩ := he
  obtain ⟨heap, hloop, hholds, hkeep⟩ :=
    reapLoop_spec lang events s.heap s.inflight 0 0 h hnd hsub (by omega) (by simp) (by simp)
  obtain ⟨heap', hloop', hholds', hkeep'⟩ := reapLoop_spec lang' events
    (retagHeap lang'.ctxAlloc s.heap) s.inflight 0 0 (h.retag lang') hnd hsub (by omega)
    (by simp) (by simp)
  have hheap : heap' = retagHeap lang'.ctxAlloc heap := hholds.eq_retag hholds' fun r hr => by
    obtain ⟨hr, hnot⟩ := List.mem_filter.mp hr
    have hnot : r.data ∉ events := of_decide_eq_true hnot
    simp only [hkeep r hr hnot, hkeep' r hr hnot, retagHeap]
  simp only [checkCompletedWith, AioState.retag_heap, hloop, hloop', ctxPages_retagHeap, hheap,
    Outcome.retag]
  rfl

/-- One call of either file from a held state, on lawful answers, with its context's
allocation succeeding: the other file's call from the relabelled state returns the same value
and leaves the relabelled state, or fails the same way. -/
theorem exec_retag {lang : Lang} (lang' : Lang) {s : AioState} {c : Call}
    (h : Holds lang s.heap s.inflight) (hc : c.Lawful s) (hm : c.MallocOk) :
    c.exec lang' (s.retag lang'.ctxAlloc) = (c.exec lang s).retag lang'.ctxAlloc := by
  cases c with
  | submitWrite fd startPage numPages env =>
    rw [exec_submitWrite hm, exec_submitWrite hm, submitWriteFrom_retag lang lang' hc hm]
  | submitRead fd startPage numPages env =>
    rw [exec_submitRead hm, exec_submitRead hm, submitReadFrom_retag lang lang',
      Outcome.map_retag]
  | checkCompleted events =>
    rw [exec_checkCompleted, exec_checkCompleted, checkCompletedWith_retag lang' h hc]

/-- A call of `blockaio.cpp` that returns had its context allocated. -/
theorem exec_cpp_mallocOk {s s' : AioState} {c : Call} {r : Int}
    (he : c.exec .cpp s = .ret r s') : c.MallocOk := by
  cases c with
  | submitWrite => exact fun h0 => by simp [Call.exec, Cpp.submitWrite, h0] at he
  | submitRead => exact fun h0 => by simp [Call.exec, Cpp.submitRead, h0, Outcome.map] at he
  | checkCompleted _ => trivial

/-! ## Every run -/

/-- A run of either file from a held state, with every context's allocation succeeding, is a
run of the other file from the relabelled state, with the same answers and return values. -/
theorem Run.retag {lang : Lang} (lang' : Lang) {s s' : AioState} {cs : List Call}
    {rs : List Int} (hrun : Run lang s cs rs s') (h : Holds lang s.heap s.inflight)
    (hm : ∀ c ∈ cs, c.MallocOk) :
    Run lang' (s.retag lang'.ctxAlloc) cs rs (s'.retag lang'.ctxAlloc) := by
  induction hrun with
  | nil => exact .nil _
  | cons hc he _ ih =>
    refine .cons (Call.lawful_retag.mpr hc) ?_
      (ih (exec_step h hc he).1 fun c hc' => hm c (List.mem_cons_of_mem _ hc'))
    rw [exec_retag lang' h hc (hm _ (List.mem_cons_self _ _)), he]
    rfl

theorem Run.mallocOk {s s' : AioState} {cs : List Call} {rs : List Int}
    (hrun : Run .cpp s cs rs s') : ∀ c ∈ cs, c.MallocOk := by
  induction hrun with
  | nil => simp
  | cons _ he _ ih => exact List.forall_mem_cons.mpr ⟨exec_cpp_mallocOk he, ih⟩

/-- The runs of `blockaio.cpp` from the start are exactly the runs of `blockaio.c` in which
every context's allocation succeeds, with the same answers and return values, each context
allocated by `new` where `blockaio.c` uses `malloc`. -/
theorem run_cpp_iff {cs : List Call} {rs : List Int} {s' : AioState} :
    Run .cpp AioState.init cs rs s' ↔
      (∀ c ∈ cs, c.MallocOk) ∧ ∃ s, Run .c AioState.init cs rs s ∧ s' = s.retag .new := by
  constructor
  · intro hrun
    have hm := hrun.mallocOk
    refine ⟨hm, s'.retag .malloc, hrun.retag .c (holds_init .cpp) hm, ?_⟩
    have hself := (hrun.holds_ledger (holds_init .cpp)).1.retagHeap_self
    rcases s' with ⟨heap, inflight⟩
    simp only [AioState.retag, retagHeap_retagHeap]
    exact congrArg (AioState.mk · inflight) hself.symm
  · rintro ⟨hm, s, hrun, rfl⟩
    exact hrun.retag .cpp (holds_init .c) hm

end Kelp.BlockAio
