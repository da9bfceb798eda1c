import Kelp.CInt
import Mathlib.Algebra.BigOperators.Group.List
import Mathlib.Algebra.Ring.Int.Defs
import Mathlib.Logic.Function.Basic

/-!
# The asynchronous I/O layer of `blockaio.c` and `blockaio.cpp`

`submit_write` allocates a `struct write_context` and a page-aligned buffer, fills the
buffer with `'A' + start_page % 26`, and hands the kernel a write of `PAGE_SIZE * num_pages`
bytes at `start_page * PAGE_SIZE` with `io_submit`, the context as the request's `data`.
`submit_read` does the same for a read.  `check_completed` asks `io_getevents` for at most
`MAX_EVENTS` finished requests without waiting, adds up their `num_pages`, and frees each
one's buffer and context.  `blockaio.cpp` has the same three functions, with `new` and
`delete` for the context.

The model is a state machine over the layer's live heap blocks and the requests the kernel
holds (`AioState`).  The C library and the kernel are its environment: each call takes their
answers as arguments (`SubmitEnv`, and the events of `io_getevents`), and `Call.Lawful` says
what their contracts promise.  A `free` of a block that is not live, a `delete` of a block
that `new` did not allocate, and an `int` operation that overflows are undefined behaviour
(`Outcome`).

Over every run from the initial state (`Run`), whatever the answers within their contracts:

* the live blocks are exactly the context and the buffer of each request in flight, each
  owned once, each context naming its buffer, each buffer as large as its request's byte
  count (`Holds`, `run_holds`): a buffer is never released while the kernel holds it, and
  once every request is reaped nothing is left allocated;
* the pages `check_completed` reports, summed over the run, and the pages still in flight
  add up to the pages of the submits that reported success (`run_ledger`): no completion
  is lost or counted twice;
* a call is undefined only where `PAGE_SIZE * num_pages` or `start_page * PAGE_SIZE`
  overflows an `int`, from `2^19` pages (2 GiB) on, or where `submit_read` of `blockaio.c`
  writes through the `NULL` of a failed `malloc` (`run_exec_ne_undefined`).  No block is
  released twice, and the sum of `check_completed` never overflows: every request's
  `num_pages` passed the product, and at most `MAX_EVENTS` come back at once.

The contract of `io_submit` matters: were it to return `0`, `submit_write` would release
both blocks and return `0`, its value for success.
-/

namespace Kelp.BlockAio

/-- `PAGE_SIZE`. -/
def pageSize : Int := 4096

/-- `MAX_EVENTS`, the most events `check_completed` asks `io_getevents` for. -/
def maxEvents : Nat := 128

/-- The file a function of the layer is in: `blockaio.c` or `blockaio.cpp`. -/
inductive Lang where
  | c
  | cpp
  deriving DecidableEq, Repr

/-- Who allocated a block: `malloc` or `posix_memalign`, whose blocks `free` releases, or
`new`, whose blocks `delete` releases. -/
inductive Alloc where
  | malloc
  | new
  deriving DecidableEq, Repr

/-- A live block of the layer. -/
inductive Cell where
  /-- A `struct write_context` (`WriteContext`): `start_page`, `num_pages`, `buffer`. -/
  | writeContext (alloc : Alloc) (startPage numPages : Int) (buffer : Nat)
  /-- A buffer of `size` bytes from `posix_memalign`: every byte `b` after a `memset` with
  `b`, or not written (`none`). -/
  | buffer (size : Nat) (fill : Option UInt8)
  deriving DecidableEq, Repr

/-- How a context is allocated: `malloc` in `blockaio.c`, `new WriteContext` in
`blockaio.cpp`. -/
def Lang.ctxAlloc : Lang → Alloc
  | .c => .malloc
  | .cpp => .new

/-- `free(p)`: nothing for `NULL`, and undefined (`none`) unless `p` is a live block of
`malloc` or `posix_memalign`. -/
def free (heap : Nat → Option Cell) (p : Nat) : Option (Nat → Option Cell) :=
  if p = 0 then some heap
  else match heap p with
    | some (.writeContext .malloc ..) | some (.buffer ..) => some (Function.update heap p none)
    | _ => none

/-- `delete ctx`: nothing for `nullptr`, and undefined unless `ctx` is a live
`WriteContext` from `new`. -/
def delete (heap : Nat → Option Cell) (p : Nat) : Option (Nat → Option Cell) :=
  if p = 0 then some heap
  else match heap p with
    | some (.writeContext .new ..) => some (Function.update heap p none)
    | _ => none

/-- How a context is released: `free(ctx)` in `blockaio.c`, `delete ctx` in
`blockaio.cpp`. -/
def Lang.releaseCtx : Lang → (Nat → Option Cell) → Nat → Option (Nat → Option Cell)
  | .c => free
  | .cpp => delete

/-- The byte `memset` stores: `'A' + (start_page % 26)`, converted to `unsigned char`. -/
def fillByte (startPage : Int) : UInt8 := UInt8.ofNat ((65 + startPage.tmod 26) % 256).toNat

/-- An `iocb` as `io_prep_pwrite` (`write`) or `io_prep_pread` sets it: the file, the
buffer, the byte count and the file offset; and `cb.data`. -/
structure Iocb where
  write : Bool
  fd : Int
  buf : Nat
  nbytes : Nat
  offset : Int
  data : Nat
  deriving DecidableEq, Repr

/-- The layer's live heap blocks, and the requests the kernel holds for `io_ctx` that
`io_getevents` has not returned yet. -/
structure AioState where
  heap : Nat → Option Cell
  inflight : List Iocb

/-- Before the first call: no block, no request. -/
def AioState.init : AioState := ⟨fun _ => none, []⟩

/-- How a call of the layer ends: it returns `a` and leaves the state `s`; the process ends
with `exit(status)`; it ends with `abort()`, from a failed `assert` or an uncaught
`std::bad_alloc`; or its behaviour is undefined. -/
inductive Outcome (α : Type) where
  | ret (a : α) (s : AioState)
  | exit (status : Int)
  | abort
  | undefined

/-- The outcome with the returned value mapped by `f`. -/
def Outcome.map {α β : Type} (f : α → β) : Outcome α → Outcome β
  | .ret a s => .ret (f a) s
  | .exit status => .exit status
  | .abort => .abort
  | .undefined => .undefined

/-- What the library and the kernel answer during one submit: the block `malloc` or `new`
returns, `0` where it fails; the buffer `posix_memalign` stores, `none` where it returns an
error; and the value of `io_submit`. -/
structure SubmitEnv where
  malloc : Nat
  memalign : Option Nat
  ioSubmit : Int
  deriving DecidableEq, Repr

/-! ## The three functions -/

/-- `submit_write` from the line after the context's allocation at `ctx` on: the two files
differ only in that allocation and in `free(ctx)` against `delete ctx`.  The context's
`buffer` is written by `posix_memalign`; nothing reads it before. -/
def submitWriteFrom (lang : Lang) (s : AioState) (fd startPage numPages : Int)
    (env : SubmitEnv) (ctx : Nat) : Outcome Int :=
  let heap := Function.update s.heap ctx (some (.writeContext lang.ctxAlloc startPage numPages 0))
  match intMul pageSize numPages with
  | none => .undefined
  | some size =>
    match env.memalign with
    | none =>
      match lang.releaseCtx heap ctx with
      | none => .undefined
      | some heap => .ret (-1) ⟨heap, s.inflight⟩
    | some buffer =>
      let heap := Function.update
        (Function.update heap ctx (some (.writeContext lang.ctxAlloc startPage numPages buffer)))
        buffer (some (.buffer (intToSize size) (some (fillByte startPage))))
      match intMul startPage pageSize with
      | none => .undefined
      | some offset =>
        let ret := env.ioSubmit
        if ret ≠ 1 then
          if InInt (-ret) then
            match free heap buffer >>= fun heap => lang.releaseCtx heap ctx with
            | none => .undefined
            | some heap => .ret ret ⟨heap, s.inflight⟩
          else .undefined
        else .ret 0 ⟨heap, s.inflight ++ [⟨true, fd, buffer, intToSize size, offset, ctx⟩]⟩

/-- `submit_read` from the line after the context's allocation at `ctx` on.  The build is
one without `NDEBUG`, where the `assert` calls `posix_memalign`. -/
def submitReadFrom (lang : Lang) (s : AioState) (fd startPage numPages : Int)
    (env : SubmitEnv) (ctx : Nat) : Outcome Unit :=
  let heap := Function.update s.heap ctx (some (.writeContext lang.ctxAlloc startPage numPages 0))
  match intMul pageSize numPages with
  | none => .undefined
  | some size =>
    match env.memalign with
    | none => .abort
    | some buffer =>
      let heap := Function.update
        (Function.update heap ctx (some (.writeContext lang.ctxAlloc startPage numPages buffer)))
        buffer (some (.buffer (intToSize size) none))
      match intMul startPage pageSize with
      | none => .undefined
      | some offset =>
        if env.ioSubmit ≠ 1 then .exit 1
        else .ret () ⟨heap, s.inflight ++ [⟨false, fd, buffer, intToSize size, offset, ctx⟩]⟩

/-- `submit_write(io_ctx, fd, start_page, num_pages)` of `blockaio.c`. -/
def submitWrite (s : AioState) (fd startPage numPages : Int) (env : SubmitEnv) : Outcome Int :=
  if env.malloc = 0 then .ret (-1) s
  else submitWriteFrom .c s fd startPage numPages env env.malloc

/-- `submit_read(io_ctx, fd, start_page, num_pages)` of `blockaio.c`: it does not check
`malloc`, and `ctx->start_page = start_page` writes through the `NULL` of a failure. -/
def submitRead (s : AioState) (fd startPage numPages : Int) (env : SubmitEnv) : Outcome Unit :=
  if env.malloc = 0 then .undefined
  else submitReadFrom .c s fd startPage numPages env env.malloc

/-- `submitWrite` of `blockaio.cpp`: `new WriteContext` throws `std::bad_alloc` where
`malloc` would return `NULL`, and nothing catches it. -/
def Cpp.submitWrite (s : AioState) (fd startPage numPages : Int) (env : SubmitEnv) :
    Outcome Int :=
  if env.malloc = 0 then .abort
  else submitWriteFrom .cpp s fd startPage numPages env env.malloc

/-- `submitRead` of `blockaio.cpp`. -/
def Cpp.submitRead (s : AioState) (fd startPage numPages : Int) (env : SubmitEnv) :
    Outcome Unit :=
  if env.malloc = 0 then .abort
  else submitReadFrom .cpp s fd startPage numPages env env.malloc

/-- The loop of `check_completed` over the events' contexts: `total_written +=
ctx->num_pages`, `free(ctx->buffer)`, and `free(ctx)` or `delete ctx`.  `none` is undefined
behaviour: a context that is not live, a block released twice, or an `int` overflow. -/
def reapLoop (lang : Lang) (heap : Nat → Option Cell) (totalWritten : Int) :
    List Nat → Option (Int × (Nat → Option Cell))
  | [] => some (totalWritten, heap)
  | ctx :: events =>
    match heap ctx with
    | some (.writeContext _ _ numPages buffer) => do
      let totalWritten ← intAdd totalWritten numPages
      let heap ← free heap buffer
      let heap ← lang.releaseCtx heap ctx
      reapLoop lang heap totalWritten events
    | _ => none

/-- `check_completed(io_ctx)` in `lang`'s file, where `io_getevents` returns the requests
whose `data` are `events` (an error, a negative count, runs the loop no time, as no event
does): the kernel lets them go, and the loop releases their blocks. -/
def checkCompletedWith (lang : Lang) (s : AioState) (events : List Nat) : Outcome Int :=
  match reapLoop lang s.heap 0 events with
  | none => .undefined
  | some (totalWritten, heap) =>
    .ret totalWritten ⟨heap, s.inflight.filter fun r => r.data ∉ events⟩

/-- `check_completed(io_ctx)` of `blockaio.c`. -/
def checkCompleted (s : AioState) (events : List Nat) : Outcome Int :=
  checkCompletedWith .c s events

/-- `checkCompleted(io_ctx)` of `blockaio.cpp`. -/
def Cpp.checkCompleted (s : AioState) (events : List Nat) : Outcome Int :=
  checkCompletedWith .cpp s events

/-! ## Runs -/

/-- One call of the layer, with what the library and the kernel answer during it. -/
inductive Call where
  | submitWrite (fd startPage numPages : Int) (env : SubmitEnv)
  | submitRead (fd startPage numPages : Int) (env : SubmitEnv)
  | checkCompleted (events : List Nat)
  deriving DecidableEq, Repr

/-- A call in `lang`'s file; `submit_read` returns nothing, written `0`. -/
def Call.exec : Lang → Call → AioState → Outcome Int
  | .c, .submitWrite fd sp np env, s => BlockAio.submitWrite s fd sp np env
  | .cpp, .submitWrite fd sp np env, s => Cpp.submitWrite s fd sp np env
  | .c, .submitRead fd sp np env, s => (BlockAio.submitRead s fd sp np env).map fun _ => 0
  | .cpp, .submitRead fd sp np env, s => (Cpp.submitRead s fd sp np env).map fun _ => 0
  | .c, .checkCompleted events, s => BlockAio.checkCompleted s events
  | .cpp, .checkCompleted events, s => Cpp.checkCompleted s events

/-- The contracts of a submit's answers in state `s`: `malloc` (or `new`) and then
`posix_memalign` return blocks that are not live, and `io_submit` of one request returns `1`
or `-errno`. -/
def SubmitEnv.Lawful (s : AioState) (env : SubmitEnv) : Prop :=
  (env.malloc ≠ 0 → s.heap env.malloc = none) ∧
    (∀ buffer ∈ env.memalign, buffer ≠ 0 ∧ buffer ≠ env.malloc ∧ s.heap buffer = none) ∧
    (env.ioSubmit = 1 ∨ -4096 < env.ioSubmit ∧ env.ioSubmit < 0)

/-- The contracts of a call's answers in state `s`; `io_getevents` returns at most
`MAX_EVENTS` distinct requests in flight. -/
def Call.Lawful (s : AioState) : Call → Prop
  | .submitWrite _ _ _ env => env.Lawful s
  | .submitRead _ _ _ env => env.Lawful s
  | .checkCompleted events =>
    events.Nodup ∧ events.length ≤ maxEvents ∧ ∀ p ∈ events, p ∈ s.inflight.map Iocb.data

instance (s : AioState) (env : SubmitEnv) : Decidable (env.Lawful s) :=
  inferInstanceAs (Decidable (_ ∧ _ ∧ _))

instance (s : AioState) : (c : Call) → Decidable (c.Lawful s)
  | .submitWrite _ _ _ env => inferInstanceAs (Decidable (env.Lawful s))
  | .submitRead _ _ _ env => inferInstanceAs (Decidable (env.Lawful s))
  | .checkCompleted _ => inferInstanceAs (Decidable (_ ∧ _ ∧ _))

/-- The pages a call's result reports submitted: `num_pages` for a `submit_write` that
returned `0` and for a `submit_read` that returned. -/
def Call.submitted : Call → Int → Int
  | .submitWrite _ _ numPages _, r => if r = 0 then numPages else 0
  | .submitRead _ _ numPages _, _ => numPages
  | .checkCompleted _, _ => 0

/-- The pages a call's result reports completed: what `check_completed` returns. -/
def Call.completed : Call → Int → Int
  | .checkCompleted _, r => r
  | _, _ => 0

/-- A submit's pages lie within `2^19` either way, so that `PAGE_SIZE * num_pages` and
`start_page * PAGE_SIZE` are `int`s; and `submit_read` of `blockaio.c` gets its context. -/
def Call.Fits (lang : Lang) : Call → Prop
  | .submitWrite _ startPage numPages _ =>
    -2 ^ 19 ≤ numPages ∧ numPages < 2 ^ 19 ∧ -2 ^ 19 ≤ startPage ∧ startPage < 2 ^ 19
  | .submitRead _ startPage numPages env =>
    -2 ^ 19 ≤ numPages ∧ numPages < 2 ^ 19 ∧ -2 ^ 19 ≤ startPage ∧ startPage < 2 ^ 19 ∧
      (lang = .c → env.malloc ≠ 0)
  | .checkCompleted _ => True

instance (lang : Lang) : (c : Call) → Decidable (c.Fits lang)
  | .submitWrite .. => inferInstanceAs (Decidable (_ ∧ _ ∧ _ ∧ _))
  | .submitRead .. => inferInstanceAs (Decidable (_ ∧ _ ∧ _ ∧ _ ∧ _))
  | .checkCompleted _ => inferInstanceAs (Decidable True)

/-- `Run lang s calls rets s'`: from `s`, the calls of `lang`'s file, their answers within
the contracts, return `rets` one after another and leave `s'`. -/
inductive Run (lang : Lang) : AioState → List Call → List Int → AioState → Prop
  | nil (s : AioState) : Run lang s [] [] s
  | cons {s s' s'' : AioState} {c : Call} {r : Int} {cs : List Call} {rs : List Int} :
      c.Lawful s → c.exec lang s = .ret r s' → Run lang s' cs rs s'' →
      Run lang s (c :: cs) (r :: rs) s''

/-! ## Releasing blocks -/

theorem free_buffer {heap : Nat → Option Cell} {p : Nat} (hp : p ≠ 0) {size : Nat}
    {fill : Option UInt8} (h : heap p = some (.buffer size fill)) :
    free heap p = some (Function.update heap p none) := by
  simp [free, hp, h]

theorem releaseCtx_eq (lang : Lang) {heap : Nat → Option Cell} {p : Nat} (hp : p ≠ 0)
    {startPage numPages : Int} {buffer : Nat}
    (h : heap p = some (.writeContext lang.ctxAlloc startPage numPages buffer)) :
    lang.releaseCtx heap p = some (Function.update heap p none) := by
  cases lang <;> simp [Lang.releaseCtx, Lang.ctxAlloc, free, delete, hp, h]

/-! ## The invariant -/

/-- The blocks of requests: each one's context and buffer. -/
def blocks (rs : List Iocb) : List Nat := rs.flatMap fun r => [r.data, r.buf]

/-- What a request in flight owns in `heap`: its context, a `write_context` of `lang`'s
allocator naming the request's buffer, whose `PAGE_SIZE * num_pages` is an `int` and the
request's byte count and whose `start_page * PAGE_SIZE` is its offset; and its buffer, of
that many bytes, filled with the byte of `start_page` for a write. -/
def Owned (lang : Lang) (heap : Nat → Option Cell) (r : Iocb) : Prop :=
  ∃ startPage numPages,
    heap r.data = some (.writeContext lang.ctxAlloc startPage numPages r.buf) ∧
    InInt (pageSize * numPages) ∧ r.nbytes = intToSize (pageSize * numPages) ∧
    r.offset = startPage * pageSize ∧
    heap r.buf = some (.buffer r.nbytes (if r.write then some (fillByte startPage) else none))

/-- `heap` holds exactly the blocks of the requests `rs`: each request owns its two blocks,
no block is owned twice or is `NULL`, and no other block is live. -/
structure Holds (lang : Lang) (heap : Nat → Option Cell) (rs : List Iocb) : Prop where
  owned : ∀ r ∈ rs, Owned lang heap r
  nodup : (blocks rs).Nodup
  nonnull : 0 ∉ blocks rs
  live : ∀ p, heap p ≠ none → p ∈ blocks rs

/-- The heap once a submit has filled in the context at `r.data` with `start_page`,
`num_pages` and `r.buf`, and the buffer at `r.buf` with its `r.nbytes` bytes, those of
`start_page` for a write. -/
def acceptHeap (heap : Nat → Option Cell) (alloc : Alloc) (startPage numPages : Int)
    (r : Iocb) : Nat → Option Cell :=
  Function.update (Function.update heap r.data (some (.writeContext alloc startPage numPages r.buf)))
    r.buf (some (.buffer r.nbytes (if r.write then some (fillByte startPage) else none)))

/-- `num_pages` of the context at `p`, `0` where there is none. -/
def ctxPages (heap : Nat → Option Cell) (p : Nat) : Int :=
  match heap p with
  | some (.writeContext _ _ numPages _) => numPages
  | _ => 0

/-- The pages of the requests `rs`: the sum of their contexts' `num_pages`. -/
def pages (heap : Nat → Option Cell) (rs : List Iocb) : Int :=
  (rs.map fun r => ctxPages heap r.data).sum

@[simp] theorem mem_blocks {p : Nat} {rs : List Iocb} :
    p ∈ blocks rs ↔ ∃ r ∈ rs, p = r.data ∨ p = r.buf := by
  simp [blocks]

theorem blocks_append_singleton (rs : List Iocb) (r : Iocb) :
    blocks (rs ++ [r]) = blocks rs ++ [r.data, r.buf] := by
  simp [blocks]

theorem map_data_sublist_blocks : ∀ rs : List Iocb, (rs.map Iocb.data).Sublist (blocks rs)
  | [] => List.nil_sublist _
  | r :: rs => ((map_data_sublist_blocks rs).cons r.buf).cons₂ r.data

theorem Owned.congr {lang : Lang} {heap heap' : Nat → Option Cell} {r : Iocb}
    (h : Owned lang heap r) (hd : heap' r.data = heap r.data) (hb : heap' r.buf = heap r.buf) :
    Owned lang heap' r := by
  obtain ⟨startPage, numPages, h1, h2, h3, h4, h5⟩ := h
  exact ⟨startPage, numPages, hd.trans h1, h2, h3, h4, hb.trans h5⟩

theorem pages_congr {heap heap' : Nat → Option Cell} {rs : List Iocb}
    (h : ∀ r ∈ rs, heap' r.data = heap r.data) : pages heap' rs = pages heap rs := by
  unfold pages ctxPages
  rw [List.map_congr_left fun r hr => by rw [h r hr]]

namespace Holds

variable {lang : Lang} {heap : Nat → Option Cell} {rs : List Iocb}

/-- The blocks of requests in flight are live. -/
theorem live_of_mem (h : Holds lang heap rs) {p : Nat} (hp : p ∈ blocks rs) :
    heap p ≠ none := by
  obtain ⟨r, hr, rfl | rfl⟩ := mem_blocks.mp hp <;>
    obtain ⟨_, _, h1, -, -, -, h5⟩ := h.owned r hr <;> simp [h1, h5]

/-- A block of a request in flight is none of the blocks that are not live. -/
theorem ne_of_mem (h : Holds lang heap rs) {p q : Nat} (hp : p ∈ blocks rs)
    (hq : heap q = none) : p ≠ q :=
  fun he => h.live_of_mem hp (he ▸ hq)

/-- A block belongs to one request only. -/
theorem eq_of_mem (h : Holds lang heap rs) {r r' : Iocb} (hr : r ∈ rs) (hr' : r' ∈ rs)
    {p : Nat} (hp : p = r.data ∨ p = r.buf) (hp' : p = r'.data ∨ p = r'.buf) : r = r' := by
  by_contra hne
  exact (List.nodup_flatMap.mp h.nodup).2.forall (fun _ _ h => h.symm) hr hr' hne
    (by simpa using hp) (by simpa using hp')

theorem data_ne_buf (h : Holds lang heap rs) {r : Iocb} (hr : r ∈ rs) : r.data ≠ r.buf := by
  simpa using (List.nodup_flatMap.mp h.nodup).1 r hr

theorem data_ne_zero (h : Holds lang heap rs) {r : Iocb} (hr : r ∈ rs) : r.data ≠ 0 :=
  fun h0 => h.nonnull (mem_blocks.mpr ⟨r, hr, .inl h0.symm⟩)

theorem buf_ne_zero (h : Holds lang heap rs) {r : Iocb} (hr : r ∈ rs) : r.buf ≠ 0 :=
  fun h0 => h.nonnull (mem_blocks.mpr ⟨r, hr, .inr h0.symm⟩)

theorem nodup_map_data (h : Holds lang heap rs) : (rs.map Iocb.data).Nodup :=
  h.nodup.sublist (map_data_sublist_blocks rs)

/-- A request added with two fresh blocks, filled in as a submit fills them, is held too. -/
theorem accept (h : Holds lang heap rs) {r : Iocb} {startPage numPages : Int}
    (hd : heap r.data = none) (hb : heap r.buf = none) (hbd : r.buf ≠ r.data)
    (hd0 : r.data ≠ 0) (hb0 : r.buf ≠ 0) (hsize : InInt (pageSize * numPages))
    (hn : r.nbytes = intToSize (pageSize * numPages)) (ho : r.offset = startPage * pageSize) :
    Holds lang (acceptHeap heap lang.ctxAlloc startPage numPages r) (rs ++ [r]) := by
  have hfresh : ∀ p ∈ blocks rs, p ≠ r.data ∧ p ≠ r.buf := fun p hp =>
    ⟨h.ne_of_mem hp hd, h.ne_of_mem hp hb⟩
  have hkeep : ∀ p ∈ blocks rs, acceptHeap heap lang.ctxAlloc startPage numPages r p = heap p :=
    fun p hp => by
      rw [acceptHeap, Function.update_noteq (hfresh p hp).2, Function.update_noteq (hfresh p hp).1]
  refine ⟨fun r' hr' => ?_, ?_, ?_, fun p hp => ?_⟩
  · rcases List.mem_append.mp hr' with hr' | hr'
    · exact (h.owned r' hr').congr (hkeep _ (mem_blocks.mpr ⟨r', hr', .inl rfl⟩))
        (hkeep _ (mem_blocks.mpr ⟨r', hr', .inr rfl⟩))
    · obtain rfl := List.mem_singleton.mp hr'
      exact ⟨startPage, numPages, by simp [acceptHeap, Function.update_noteq hbd.symm], hsize, hn,
        ho, by simp [acceptHeap]⟩
  · rw [blocks_append_singleton, List.nodup_append]
    exact ⟨h.nodup, by simp [hbd.symm], fun p hp hp' => by
      rcases List.mem_pair.mp hp' with he | he
      exacts [(hfresh p hp).1 he, (hfresh p hp).2 he]⟩
  · rw [blocks_append_singleton]
    simp only [List.mem_append, List.mem_cons, List.mem_singleton, not_or]
    exact ⟨h.nonnull, hd0.symm, hb0.symm, List.not_mem_nil 0⟩
  · rw [blocks_append_singleton, List.mem_append, List.mem_pair]
    by_cases hpb : p = r.buf
    · exact .inr (.inr hpb)
    by_cases hpd : p = r.data
    · exact .inr (.inl hpd)
    rw [acceptHeap, Function.update_noteq hpb, Function.update_noteq hpd] at hp
    exact .inl (h.live p hp)

theorem pages_accept (h : Holds lang heap rs) {r : Iocb} {startPage numPages : Int}
    (hd : heap r.data = none) (hb : heap r.buf = none) (hbd : r.buf ≠ r.data) :
    pages (acceptHeap heap lang.ctxAlloc startPage numPages r) (rs ++ [r]) =
      pages heap rs + numPages := by
  have hkeep : ∀ r' ∈ rs, acceptHeap heap lang.ctxAlloc startPage numPages r r'.data =
      heap r'.data := fun r' hr' => by
    have hmem := mem_blocks.mpr ⟨r', hr', .inl rfl⟩
    rw [acceptHeap, Function.update_noteq (h.ne_of_mem hmem hb),
      Function.update_noteq (h.ne_of_mem hmem hd)]
  rw [pages, List.map_append, List.sum_append, ← pages, pages_congr hkeep]
  simp [ctxPages, acceptHeap, Function.update_noteq hbd.symm]

/-- The blocks of request `r` released: the other requests still hold theirs. -/
theorem erase (h : Holds lang heap rs) {r : Iocb} (hr : r ∈ rs) :
    Holds lang (Function.update (Function.update heap r.buf none) r.data none)
      (rs.filter fun r' => r'.data ≠ r.data) := by
  have hkeep : ∀ r' ∈ rs, r'.data ≠ r.data → ∀ p, p = r'.data ∨ p = r'.buf →
      Function.update (Function.update heap r.buf none) r.data none p = heap p := by
    intro r' hr' hne p hp
    have hr'r : r' ≠ r := fun e => hne (e ▸ rfl)
    rw [Function.update_noteq fun e => hr'r (h.eq_of_mem hr' hr hp (.inl e)),
      Function.update_noteq fun e => hr'r (h.eq_of_mem hr' hr hp (.inr e))]
  refine ⟨fun r' hr' => ?_, ?_, fun h0 => ?_, fun p hp => ?_⟩
  · obtain ⟨hr', hne⟩ := List.mem_filter.mp hr'
    have hne : r'.data ≠ r.data := of_decide_eq_true hne
    exact (h.owned r' hr').congr (hkeep r' hr' hne _ (.inl rfl)) (hkeep r' hr' hne _ (.inr rfl))
  · obtain ⟨hself, hpair⟩ := List.nodup_flatMap.mp h.nodup
    exact List.nodup_flatMap.mpr
      ⟨fun x hx => hself x (List.mem_filter.mp hx).1, hpair.filter _⟩
  · obtain ⟨r', hr', h0⟩ := mem_blocks.mp h0
    exact h.nonnull (mem_blocks.mpr ⟨r', (List.mem_filter.mp hr').1, h0⟩)
  · have hpd : p ≠ r.data := fun e => hp (by rw [e, Function.update_same])
    have hpb : p ≠ r.buf := fun e => hp (by
      rw [e, Function.update_noteq (h.data_ne_buf hr).symm, Function.update_same])
    rw [Function.update_noteq hpd, Function.update_noteq hpb] at hp
    obtain ⟨r', hr', hp'⟩ := mem_blocks.mp (h.live p hp)
    have hne : r'.data ≠ r.data := fun e => by
      obtain rfl := h.eq_of_mem hr' hr (.inl rfl) (.inl e)
      rcases hp' with rfl | rfl <;> contradiction
    exact mem_blocks.mpr ⟨r', List.mem_filter.mpr ⟨hr', decide_eq_true hne⟩, hp'⟩

end Holds

/-! ## `check_completed` -/

theorem filter_filter_data (rs : List Iocb) (p : Nat) (events : List Nat) :
    ((rs.filter fun r => r.data ≠ p).filter fun r => r.data ∉ events) =
      rs.filter fun r => r.data ∉ p :: events := by
  rw [List.filter_filter]
  congr
  funext r
  simp [Bool.and_comm]

/-- The loop of `check_completed` over distinct requests in flight releases exactly their
blocks and adds up their `num_pages`.  Each `num_pages` is below `2^19` either way, so the sum
does not overflow while `k` events are done and at most `MAX_EVENTS` in all. -/
theorem reapLoop_spec (lang : Lang) : ∀ (events : List Nat) (heap : Nat → Option Cell)
    (rs : List Iocb) (t : Int) (k : Nat), Holds lang heap rs → events.Nodup →
    (∀ p ∈ events, p ∈ rs.map Iocb.data) → k + events.length ≤ maxEvents →
    -(2 ^ 19 * k : Int) ≤ t → t ≤ 2 ^ 19 * k →
    ∃ heap', reapLoop lang heap t events = some (t + (events.map (ctxPages heap)).sum, heap') ∧
      Holds lang heap' (rs.filter fun r => r.data ∉ events) ∧
      ∀ r ∈ rs, r.data ∉ events → heap' r.data = heap r.data
  | [], heap, rs, t, _, h, _, _, _, _, _ =>
    ⟨heap, by simp [reapLoop], by simpa using h, fun _ _ _ => rfl⟩
  | p :: events, heap, rs, t, k, h, hnd, hev, hk, ht, ht' => by
    obtain ⟨r, hr, rfl⟩ := List.mem_map.mp (hev p (List.mem_cons_self _ _))
    obtain ⟨startPage, numPages, hctx, hsize, -, -, hbuf⟩ := h.owned r hr
    obtain ⟨hnot, hnd⟩ := List.nodup_cons.mp hnd
    have hk : k + 1 + events.length ≤ maxEvents := by simp at hk; omega
    have hnp : -2 ^ 19 ≤ numPages ∧ numPages < 2 ^ 19 := by
      unfold InInt pageSize at hsize; omega
    have hstep : reapLoop lang heap t (r.data :: events) =
        reapLoop lang (Function.update (Function.update heap r.buf none) r.data none)
          (t + numPages) events := by
      have hctx' : Function.update heap r.buf none r.data = some (.writeContext lang.ctxAlloc
          startPage numPages r.buf) := by rw [Function.update_noteq (h.data_ne_buf hr), hctx]
      simp only [reapLoop, hctx, intAdd_of_inInt (show InInt (t + numPages) by
        unfold InInt; unfold maxEvents at hk; omega), free_buffer (h.buf_ne_zero hr) hbuf,
        releaseCtx_eq lang (h.data_ne_zero hr) hctx', Option.bind_eq_bind, Option.some_bind]
    -- the other events are contexts of the other requests, whose blocks are untouched
    have hother : ∀ q ∈ events, ∃ r' ∈ rs, r'.data = q ∧ r'.data ≠ r.data ∧ q ≠ r.buf := by
      intro q hq
      obtain ⟨r', hr', rfl⟩ := List.mem_map.mp (hev q (List.mem_cons_of_mem _ hq))
      have hne : r'.data ≠ r.data := fun e => hnot (e ▸ hq)
      exact ⟨r', hr', rfl, hne, fun e => hne (congrArg Iocb.data
        (h.eq_of_mem hr' hr (.inl rfl) (.inr e)))⟩
    obtain ⟨heap', hloop, hholds, hkeep⟩ := reapLoop_spec lang events _ _ (t + numPages) (k + 1)
      (h.erase hr) hnd (fun q hq => by
        obtain ⟨r', hr', rfl, hne, -⟩ := hother q hq
        exact List.mem_map_of_mem _ (List.mem_filter.mpr ⟨hr', decide_eq_true hne⟩))
      hk (by push_cast; omega) (by push_cast; omega)
    have hsum : (events.map (ctxPages (Function.update (Function.update heap r.buf none) r.data
        none))).sum = (events.map (ctxPages heap)).sum := by
      congr 1
      refine List.map_congr_left fun q hq => ?_
      obtain ⟨r', -, rfl, hne, hb⟩ := hother q hq
      simp only [ctxPages, Function.update_noteq hne, Function.update_noteq hb]
    refine ⟨heap', ?_, by rwa [← filter_filter_data], fun r' hr' hr'e => ?_⟩
    · rw [hstep, hloop, hsum, List.map_cons, List.sum_cons, ctxPages, hctx, add_assoc]
    · simp only [List.mem_cons, not_or] at hr'e
      rw [hkeep r' (List.mem_filter.mpr ⟨hr', decide_eq_true hr'e.1⟩) hr'e.2,
        Function.update_noteq hr'e.1, Function.update_noteq fun e => hr'e.1 (congrArg Iocb.data
          (h.eq_of_mem hr' hr (.inl rfl) (.inr e)))]

theorem filter_data_mem_perm {rs : List Iocb} {events : List Nat}
    (hnd : (rs.map Iocb.data).Nodup) (hev : events.Nodup)
    (hsub : ∀ p ∈ events, p ∈ rs.map Iocb.data) :
    ((rs.filter fun r => r.data ∈ events).map Iocb.data).Perm events := by
  refine (List.perm_ext_iff_of_nodup (hnd.sublist ((List.filter_sublist _).map _)) hev).mpr
    fun p => ⟨fun hp => ?_, fun hp => ?_⟩
  · obtain ⟨r, hr, rfl⟩ := List.mem_map.mp hp
    exact of_decide_eq_true (List.mem_filter.mp hr).2
  · obtain ⟨r, hr, rfl⟩ := List.mem_map.mp (hsub p hp)
    exact List.mem_map_of_mem _ (List.mem_filter.mpr ⟨hr, decide_eq_true hp⟩)

/-- `check_completed` from a held state, on a lawful answer of `io_getevents`: it returns the
sum of the reaped contexts' `num_pages`, and the requests left are held, with their pages. -/
theorem checkCompletedWith_spec {lang : Lang} {s : AioState} {events : List Nat}
    (h : Holds lang s.heap s.inflight) (he : (Call.checkCompleted events).Lawful s) :
    ∃ heap', checkCompletedWith lang s events = .ret (events.map (ctxPages s.heap)).sum
        ⟨heap', s.inflight.filter fun r => r.data ∉ events⟩ ∧
      Holds lang heap' (s.inflight.filter fun r => r.data ∉ events) ∧
      pages heap' (s.inflight.filter fun r => r.data ∉ events) +
        (events.map (ctxPages s.heap)).sum = pages s.heap s.inflight := by
  obtain ⟨hnd, hlen, hsub⟩ := he
  obtain ⟨heap', hloop, hholds, hkeep⟩ :=
    reapLoop_spec lang events s.heap s.inflight 0 0 h hnd hsub (by omega) (by simp) (by simp)
  refine ⟨heap', by rw [checkCompletedWith, hloop, zero_add], hholds, ?_⟩
  rw [pages_congr fun r hr => hkeep r (List.mem_filter.mp hr).1
      (of_decide_eq_true (List.mem_filter.mp hr).2), pages, pages,
    ← List.sum_map_filter_add_sum_map_filter_not (fun r => r.data ∈ events)
      (fun r => ctxPages s.heap r.data) s.inflight, add_comm]
  congr 1
  rw [show (fun r : Iocb => ctxPages s.heap r.data) = ctxPages s.heap ∘ Iocb.data from rfl,
    ← List.map_map]
  exact ((filter_data_mem_perm h.nodup_map_data hnd hsub).map _).sum_eq.symm

/-! ## The submits -/

theorem update_restore {heap : Nat → Option Cell} {p q : Nat} (hp : heap p = none)
    (hq : heap q = none) (c : Option Cell) :
    Function.update (Function.update (Function.update heap p c) q none) p none = heap := by
  funext x
  simp only [Function.update_apply]
  split_ifs <;> simp_all

/-- `submit_write` after its context's allocation, on fresh blocks and with
`PAGE_SIZE * num_pages` an `int`: a failed `posix_memalign` or `io_submit` releases what was
allocated and leaves the state as it was; an accepted request is added with its blocks. -/
theorem submitWriteFrom_eq {lang : Lang} {s : AioState} {fd startPage numPages : Int}
    {env : SubmitEnv} {ctx : Nat} (hctx : s.heap ctx = none) (hctx0 : ctx ≠ 0)
    (hbuf : ∀ buffer ∈ env.memalign, buffer ≠ 0 ∧ buffer ≠ ctx ∧ s.heap buffer = none)
    (hsize : InInt (pageSize * numPages)) (hret : InInt (-env.ioSubmit)) :
    submitWriteFrom lang s fd startPage numPages env ctx =
      match env.memalign, intMul startPage pageSize with
      | none, _ => .ret (-1) s
      | some _, none => .undefined
      | some buffer, some offset =>
        if env.ioSubmit = 1 then
          .ret 0 ⟨acceptHeap s.heap lang.ctxAlloc startPage numPages
              ⟨true, fd, buffer, intToSize (pageSize * numPages), offset, ctx⟩,
            s.inflight ++ [⟨true, fd, buffer, intToSize (pageSize * numPages), offset, ctx⟩]⟩
        else .ret env.ioSubmit s := by
  unfold submitWriteFrom
  rw [intMul_of_inInt hsize]
  rcases hm : env.memalign with _ | buffer
  · simp only
    rw [releaseCtx_eq lang hctx0 (Function.update_same _ _ _), Function.update_idem,
      show Function.update s.heap ctx none = s.heap from Function.update_eq_self_iff.mpr hctx.symm]
  · obtain ⟨hb0, hbc, hb⟩ := hbuf buffer hm
    rcases intMul startPage pageSize with _ | offset
    · rfl
    · simp only [Function.update_idem]
      by_cases h1 : env.ioSubmit = 1
      · simp only [h1, ne_eq, not_true_eq_false, if_false, if_true]
        rfl
      · have hctx' : Function.update (Function.update s.heap ctx (some (.writeContext
            lang.ctxAlloc startPage numPages buffer))) buffer none ctx =
            some (.writeContext lang.ctxAlloc startPage numPages buffer) := by
          rw [Function.update_noteq hbc.symm, Function.update_same]
        simp only [h1, ne_eq, not_false_eq_true, if_true, if_false, if_pos hret,
          free_buffer hb0 (Function.update_same _ _ _), Option.bind_eq_bind, Option.some_bind,
          Function.update_idem, releaseCtx_eq lang hctx0 hctx', update_restore hctx hb]

/-- `submit_read` after its context's allocation, with `PAGE_SIZE * num_pages` an `int`. -/
theorem submitReadFrom_eq {lang : Lang} {s : AioState} {fd startPage numPages : Int}
    {env : SubmitEnv} {ctx : Nat} (hsize : InInt (pageSize * numPages)) :
    submitReadFrom lang s fd startPage numPages env ctx =
      match env.memalign, intMul startPage pageSize with
      | none, _ => .abort
      | some _, none => .undefined
      | some buffer, some offset =>
        if env.ioSubmit = 1 then
          .ret () ⟨acceptHeap s.heap lang.ctxAlloc startPage numPages
              ⟨false, fd, buffer, intToSize (pageSize * numPages), offset, ctx⟩,
            s.inflight ++ [⟨false, fd, buffer, intToSize (pageSize * numPages), offset, ctx⟩]⟩
        else .exit 1 := by
  unfold submitReadFrom
  rw [intMul_of_inInt hsize]
  rcases env.memalign with _ | buffer
  · rfl
  · rcases intMul startPage pageSize with _ | offset
    · rfl
    · by_cases h1 : env.ioSubmit = 1 <;> simp [h1, Function.update_idem, acceptHeap]

/-- What `submitWriteFrom` can return from a held state on lawful answers: a nonzero value
with the state unchanged, or `0` with one more request held, of `num_pages` pages. -/
theorem submitWriteFrom_ret {lang : Lang} {s s' : AioState} {fd startPage numPages r : Int}
    {env : SubmitEnv} (h : Holds lang s.heap s.inflight) (henv : env.Lawful s)
    (hm : env.malloc ≠ 0)
    (he : submitWriteFrom lang s fd startPage numPages env env.malloc = .ret r s') :
    Holds lang s'.heap s'.inflight ∧
      pages s'.heap s'.inflight = pages s.heap s.inflight + if r = 0 then numPages else 0 := by
  obtain ⟨hctx, hbuf, hsub⟩ := henv
  by_cases hsize : InInt (pageSize * numPages)
  swap
  · simp [submitWriteFrom, intMul_of_not_inInt hsize] at he
  rw [submitWriteFrom_eq (hctx hm) hm hbuf hsize (by unfold InInt; omega)] at he
  rcases hmem : env.memalign with _ | buffer <;> rw [hmem] at he
  · cases he
    simp [h]
  obtain ⟨hb0, hbc, hb⟩ := hbuf buffer hmem
  rcases hoff : intMul startPage pageSize with _ | offset <;> rw [hoff] at he
  · cases he
  by_cases h1 : env.ioSubmit = 1 <;> simp only [h1, if_true, if_false] at he <;> cases he
  · exact ⟨h.accept (hctx hm) hb hbc hm hb0 hsize rfl (eq_of_intMul_eq_some hoff),
      by rw [h.pages_accept (hctx hm) hb hbc, if_pos rfl]⟩
  · exact ⟨h, by rw [if_neg (by omega), add_zero]⟩

/-- What `submitReadFrom` can return: `()` with one more request held, of `num_pages`
pages. -/
theorem submitReadFrom_ret {lang : Lang} {s s' : AioState} {fd startPage numPages : Int}
    {env : SubmitEnv} (h : Holds lang s.heap s.inflight) (henv : env.Lawful s)
    (hm : env.malloc ≠ 0)
    (he : submitReadFrom lang s fd startPage numPages env env.malloc = .ret () s') :
    Holds lang s'.heap s'.inflight ∧ pages s'.heap s'.inflight = pages s.heap s.inflight + numPages := by
  obtain ⟨hctx, hbuf, -⟩ := henv
  by_cases hsize : InInt (pageSize * numPages)
  swap
  · simp [submitReadFrom, intMul_of_not_inInt hsize] at he
  rw [submitReadFrom_eq hsize] at he
  rcases hmem : env.memalign with _ | buffer <;> rw [hmem] at he
  · cases he
  obtain ⟨hb0, hbc, hb⟩ := hbuf buffer hmem
  rcases hoff : intMul startPage pageSize with _ | offset <;> rw [hoff] at he
  · cases he
  by_cases h1 : env.ioSubmit = 1 <;> simp only [h1, if_true, if_false] at he <;> cases he
  exact ⟨h.accept (hctx hm) hb hbc hm hb0 hsize rfl (eq_of_intMul_eq_some hoff),
    h.pages_accept (hctx hm) hb hbc⟩

theorem Outcome.map_eq_ret {α β : Type} {f : α → β} {o : Outcome α} {b : β} {s : AioState}
    (h : o.map f = .ret b s) : ∃ a, o = .ret a s ∧ f a = b := by
  cases o <;> simp only [Outcome.map, Outcome.ret.injEq, reduceCtorEq] at h
  exact ⟨_, h.2 ▸ rfl, h.1⟩

/-! ## Every run -/

/-- One call from a held state that returns, on lawful answers: the state it leaves is held,
and the pages in flight move by what it reports submitted and completed. -/
theorem exec_step {lang : Lang} {s s' : AioState} {c : Call} {r : Int}
    (h : Holds lang s.heap s.inflight) (hc : c.Lawful s) (he : c.exec lang s = .ret r s') :
    Holds lang s'.heap s'.inflight ∧
      pages s'.heap s'.inflight + c.completed r = pages s.heap s.inflight + c.submitted r := by
  cases c with
  | submitWrite fd startPage numPages env =>
    simp only [Call.completed, Call.submitted, add_zero]
    cases lang <;> simp only [Call.exec, BlockAio.submitWrite, Cpp.submitWrite] at he <;>
      split_ifs at he with hm
    · cases he
      simp [h]
    all_goals exact submitWriteFrom_ret h hc hm he
  | submitRead fd startPage numPages env =>
    simp only [Call.completed, Call.submitted, add_zero]
    cases lang <;> simp only [Call.exec, BlockAio.submitRead, Cpp.submitRead] at he <;>
      obtain ⟨⟨⟩, he, -⟩ := Outcome.map_eq_ret he <;> split_ifs at he with hm <;>
      exact submitReadFrom_ret h hc hm he
  | checkCompleted events =>
    obtain ⟨heap', hret, hholds, hpages⟩ := checkCompletedWith_spec h hc
    have he' : checkCompletedWith lang s events = .ret r s' := by
      cases lang <;> exact he
    rw [hret] at he'
    cases he'
    exact ⟨hholds, by rw [Call.completed, Call.submitted, hpages, add_zero]⟩

theorem holds_init (lang : Lang) : Holds lang AioState.init.heap AioState.init.inflight :=
  ⟨by simp [AioState.init], by simp [AioState.init, blocks], by simp [AioState.init, blocks],
    by simp [AioState.init]⟩

/-- The invariant and the ledger along a run from a held state. -/
theorem Run.holds_ledger {lang : Lang} {s s' : AioState} {cs : List Call} {rs : List Int}
    (hrun : Run lang s cs rs s') (h : Holds lang s.heap s.inflight) :
    Holds lang s'.heap s'.inflight ∧
      pages s'.heap s'.inflight + (List.zipWith Call.completed cs rs).sum =
        pages s.heap s.inflight + (List.zipWith Call.submitted cs rs).sum := by
  induction hrun with
  | nil => exact ⟨h, by simp⟩
  | cons hc he _ ih =>
    obtain ⟨h', hstep⟩ := exec_step h hc he
    obtain ⟨h'', hrest⟩ := ih h'
    refine ⟨h'', ?_⟩
    simp only [List.zipWith_cons_cons, List.sum_cons]
    omega

/-- A run: two requests accepted, one refused by `io_submit` with `-EAGAIN`, both reaped. -/
def sampleCalls : List Call :=
  [.submitWrite 3 0 2 ⟨16, some 4096, 1⟩, .submitRead 3 8 1 ⟨32, some 8192, 1⟩,
    .submitWrite 3 2 4 ⟨48, some 12288, -11⟩, .checkCompleted [32, 16]]

theorem run_sampleCalls (lang : Lang) :
    ∃ s, Run lang AioState.init sampleCalls [0, 0, -11, 3] s := by
  cases lang <;> exact ⟨_, .cons (by decide) rfl (.cons (by decide) rfl
    (.cons (by decide) rfl (.cons (by decide) rfl (.nil _))))⟩

/-- In every state a run reaches from the start, whatever the answers within their
contracts, the live blocks are exactly the context and the buffer of each request in flight,
each owned by one request and filled in as its request says. -/
theorem run_holds {lang : Lang} {cs : List Call} {rs : List Int} {s : AioState}
    (hrun : Run lang AioState.init cs rs s) : Holds lang s.heap s.inflight :=
  (hrun.holds_ledger (holds_init lang)).1

theorem run_holds_sampleCalls :
    ∃ s, Run .c AioState.init sampleCalls [0, 0, -11, 3] s ∧ Holds .c s.heap s.inflight :=
  let ⟨s, hrun⟩ := run_sampleCalls .c
  ⟨s, hrun, run_holds hrun⟩

/-- Over every run from the start, the pages of the submits that reported success are the
pages `check_completed` reported plus the pages still in flight. -/
theorem run_ledger {lang : Lang} {cs : List Call} {rs : List Int} {s : AioState}
    (hrun : Run lang AioState.init cs rs s) :
    (List.zipWith Call.submitted cs rs).sum =
      (List.zipWith Call.completed cs rs).sum + pages s.heap s.inflight := by
  have := (hrun.holds_ledger (holds_init lang)).2
  simp only [pages, AioState.init, List.map_nil, List.sum_nil, zero_add] at this
  rw [← this, pages, add_comm]

theorem run_ledger_sampleCalls :
    ∃ s, Run .cpp AioState.init sampleCalls [0, 0, -11, 3] s ∧
      (List.zipWith Call.submitted sampleCalls [0, 0, -11, 3]).sum =
        (List.zipWith Call.completed sampleCalls [0, 0, -11, 3]).sum + pages s.heap s.inflight :=
  let ⟨s, hrun⟩ := run_sampleCalls .cpp
  ⟨s, hrun, run_ledger hrun⟩

theorem Outcome.map_ne_undefined {α β : Type} {f : α → β} {o : Outcome α}
    (h : o ≠ .undefined) : o.map f ≠ .undefined := by
  cases o <;> simp_all [Outcome.map]

/-- From a held state, on lawful answers, a call whose pages fit is not undefined. -/
theorem exec_ne_undefined {lang : Lang} {s : AioState} {c : Call}
    (h : Holds lang s.heap s.inflight) (hc : c.Lawful s) (hf : c.Fits lang) :
    c.exec lang s ≠ .undefined := by
  cases c with
  | submitWrite fd startPage numPages env =>
    obtain ⟨hctx, hbuf, hsub⟩ := hc
    have hfrom : env.malloc ≠ 0 → ∀ lang' : Lang,
        submitWriteFrom lang' s fd startPage numPages env env.malloc ≠ .undefined := by
      intro hm lang'
      rw [submitWriteFrom_eq (hctx hm) hm hbuf (by unfold InInt pageSize Call.Fits at *; omega)
        (by unfold InInt; omega), intMul_of_inInt (by unfold InInt pageSize Call.Fits at *; omega)]
      rcases env.memalign with _ | _
      · simp
      · split_ifs <;> simp
    cases lang <;> simp only [Call.exec, BlockAio.submitWrite, Cpp.submitWrite] <;>
      split_ifs with hm <;> first | exact hfrom hm _ | simp
  | submitRead fd startPage numPages env =>
    obtain ⟨h1, h2, h3, h4, hnull⟩ := hf
    have hfrom : ∀ lang' : Lang,
        submitReadFrom lang' s fd startPage numPages env env.malloc ≠ .undefined := by
      intro lang'
      rw [submitReadFrom_eq (by unfold InInt pageSize; omega),
        intMul_of_inInt (by unfold InInt pageSize; omega)]
      rcases env.memalign with _ | _
      · simp
      · split_ifs <;> simp
    cases lang <;> simp only [Call.exec, BlockAio.submitRead, Cpp.submitRead] <;>
      refine Outcome.map_ne_undefined ?_ <;> split_ifs with hm
    · exact absurd hm (hnull rfl)
    all_goals first | exact hfrom _ | simp
  | checkCompleted events =>
    obtain ⟨heap', hret, -⟩ := checkCompletedWith_spec h hc
    cases lang <;> simp only [Call.exec, BlockAio.checkCompleted, Cpp.checkCompleted, hret] <;>
      simp

/-- From every state a run reaches from the start, a call with lawful answers is undefined
only where a submit's pages reach `2^19` either way, so that `PAGE_SIZE * num_pages` or
`start_page * PAGE_SIZE` overflows, or where `submit_read` of `blockaio.c` gets no context:
no block is ever released that is not live, and the sum of `check_completed` never
overflows. -/
theorem run_exec_ne_undefined {lang : Lang} {cs : List Call} {rs : List Int} {s : AioState}
    (hrun : Run lang AioState.init cs rs s) {c : Call} (hc : c.Lawful s) (hf : c.Fits lang) :
    c.exec lang s ≠ .undefined :=
  exec_ne_undefined (hrun.holds_ledger (holds_init lang)).1 hc hf

/-- After the sample run, a write of the last page below `2^19`. -/
theorem run_exec_ne_undefined_sampleCalls :
    ∃ s, Run .c AioState.init sampleCalls [0, 0, -11, 3] s ∧
      (Call.submitWrite 3 (2 ^ 19 - 1) 1 ⟨16, some 32, 1⟩).Lawful s ∧
      (Call.submitWrite 3 (2 ^ 19 - 1) 1 ⟨16, some 32, 1⟩).Fits .c ∧
      (Call.submitWrite 3 (2 ^ 19 - 1) 1 ⟨16, some 32, 1⟩).exec .c s ≠ .undefined := by
  refine ⟨_, .cons (by decide) rfl (.cons (by decide) rfl (.cons (by decide) rfl
    (.cons (by decide) rfl (.nil _)))), by decide, by decide, ?_⟩
  exact run_exec_ne_undefined (show Run .c AioState.init sampleCalls [0, 0, -11, 3] _ from
    .cons (by decide) rfl (.cons (by decide) rfl (.cons (by decide) rfl
      (.cons (by decide) rfl (.nil _))))) (by decide) (by decide)

end Kelp.BlockAio
