/-
  `collector/src/calls_collector_thread.cpp`: turning enter/exit notifications into a trace.

  The collector keeps its own stack of return entries next to the machine stack.  `on_enter`
  pushes one unless the stack pointer is that of the entry on top (a tail call); `on_exit` pops
  entries until the next one lies above the stack pointer it was given.

  1. **The code** — `onEnter`, `onExit` (its `do/while` is `unwind`), `track`.  The vector is a
     list with `back()` first, the sentinel last; `none` is the undefined `back()` of an empty
     vector.  The trace goes through the buffers queue; here it is the list of tracked records.

  2. **The emitted trace can always be consumed** (`trace_consumable`) — each notification is a
     well-nested piece of trace: `Collected` ties the number of return entries above the sentinel
     to the open depth of the call tree read from the tracked records.  The consumer's side is
     `ShadowStack.update_refines`: a trace with a reading never pops the root record.
-/
import MicroProfiler.Collector.ShadowStack

namespace MicroProfiler

/-- `struct return_entry`. -/
structure ReturnEntry where
  stackPtr : Nat
  returnAddress : Nat
deriving DecidableEq, Repr

/-- `static_cast<size_t>(-1)` on a 64-bit target: the sentinel's stack pointer. -/
def topOfStack : Nat := 2 ^ 64 - 1

/-- The sentinel entry the constructor pushes. -/
def sentinel : ReturnEntry := ⟨topOfStack, 0⟩

/-- `class calls_collector_thread`: the return stack, `back()` first, and the records tracked. -/
structure CallsCollectorThread (K : Type) where
  returnStack : List ReturnEntry
  tracked : List (CallRecord K)
deriving DecidableEq, Repr

namespace CallsCollectorThread

variable {K : Type}

/-- A thread that has called nothing: only the sentinel, which is never popped. -/
def new : CallsCollectorThread K := ⟨[sentinel], []⟩

/-- `calls_collector_thread::track`. -/
def track (c : CallsCollectorThread K) (callee : Option K) (timestamp : Int) :
    CallsCollectorThread K :=
  { c with tracked := c.tracked ++ [⟨timestamp, callee⟩] }

/-- `calls_collector_thread::on_enter`; `contents` is what `*stack_ptr` reads. -/
def onEnter (c : CallsCollectorThread K) (stackPtr contents : Nat) (timestamp : Int)
    (callee : Option K) : Option (CallsCollectorThread K) :=
  match c.returnStack with
  -- `back()` of an empty stack; the sentinel keeps it from that
  | [] => none
  | top :: _ =>
      if top.stackPtr ≠ stackPtr then
        -- regular nesting
        some ({ c with returnStack := ⟨stackPtr, contents⟩ :: c.returnStack }.track callee timestamp)
      else
        -- tail-call optimization
        some ((c.track none timestamp).track callee timestamp)

/-- The loop of `on_exit`: pop, track an exit, and go on while the next entry is not above
    `stackPtr`.  The address returned is the last popped entry's. -/
def unwind (stackPtr : Nat) (timestamp : Int) :
    List ReturnEntry → List (CallRecord K) → Option (Nat × CallsCollectorThread K)
  | top :: next :: below, tracked =>
      -- the frame below has been left as well
      if next.stackPtr ≤ stackPtr then
        unwind stackPtr timestamp (next :: below) (tracked ++ [⟨timestamp, none⟩])
      else
        some (top.returnAddress, ⟨next :: below, tracked ++ [⟨timestamp, none⟩]⟩)
  -- the sentinel would be popped
  | _, _ => none

/-- `calls_collector_thread::on_exit`: the return address and the collector afterwards. -/
def onExit (c : CallsCollectorThread K) (stackPtr : Nat) (timestamp : Int) :
    Option (Nat × CallsCollectorThread K) :=
  unwind stackPtr timestamp c.returnStack c.tracked

/-! ## Notifications, and the order they may come in -/

/-- A notification from the instrumented thread. -/
inductive Notification (K : Type) where
  /-- `on_enter`, with what is at the stack pointer -/
  | enter (stackPtr contents : Nat) (timestamp : Int) (callee : K)
  /-- `on_exit` -/
  | exit (stackPtr : Nat) (timestamp : Int)
deriving DecidableEq, Repr

/-- The stack pointer is below the sentinel's, and an exit finds an entered frame open. -/
def Notification.Allowed (c : CallsCollectorThread K) : Notification K → Prop
  | .enter stackPtr _ _ _ => stackPtr < topOfStack
  | .exit stackPtr _ => stackPtr < topOfStack ∧ 1 < c.returnStack.length

instance (c : CallsCollectorThread K) (n : Notification K) : Decidable (n.Allowed c) := by
  cases n <;> unfold Notification.Allowed <;> infer_instance

/-- What the collector does on a notification. -/
def notify (c : CallsCollectorThread K) : Notification K → Option (CallsCollectorThread K)
  | .enter stackPtr contents timestamp callee => c.onEnter stackPtr contents timestamp (some callee)
  | .exit stackPtr timestamp => (c.onExit stackPtr timestamp).map Prod.snd

/-- One allowed notification. -/
def step (c : CallsCollectorThread K) (n : Notification K) : Option (CallsCollectorThread K) :=
  if n.Allowed c then c.notify n else none

/-! ## The return stack and the open depth of the trace stay in step -/

/-- The invariant: entries above a sentinel, one for each call left open by the tracked records. -/
structure Collected (c : CallsCollectorThread K) : Prop where
  /-- so no exit goes below it -/
  bottom : ∃ entries, c.returnStack = entries ++ [sentinel] ∧
    ∀ e ∈ entries, e.stackPtr < topOfStack
  /-- the trace has a reading, as deep as the stack -/
  depth : ∃ t, CallTree.read c.tracked = some t ∧ c.returnStack.length = t.opened.length + 1

/-- It holds of a new collector. -/
theorem new_collected : Collected (new : CallsCollectorThread K) where
  bottom := ⟨[], rfl, fun _ h => absurd h List.not_mem_nil⟩
  depth := ⟨CallTree.empty, rfl, rfl⟩

/-- Reading one more record. -/
theorem read_concat {trace : List (CallRecord K)} {t t' : CallTree K} {r : CallRecord K}
    (h : CallTree.read trace = some t) (hr : t.step r = some t') :
    CallTree.read (trace ++ [r]) = some t' :=
  Lib.run_append_eq_some.mpr ⟨t, h, Lib.run_cons_eq_some.mpr ⟨t', hr, rfl⟩⟩

/-- An enter goes one deeper, -/
theorem read_enter {trace : List (CallRecord K)} {t : CallTree K}
    (h : CallTree.read trace = some t) (ts : Int) (k : K) :
    ∃ t', CallTree.read (trace ++ [⟨ts, some k⟩]) = some t' ∧
      t'.opened.length = t.opened.length + 1 :=
  ⟨_, read_concat h (CallTree.step_enter t ts k), rfl⟩

/-- and an exit one up, if anything is open. -/
theorem read_exit {trace : List (CallRecord K)} {t : CallTree K}
    (h : CallTree.read trace = some t) (ts : Int) (hopen : 0 < t.opened.length) :
    ∃ t', CallTree.read (trace ++ [⟨ts, none⟩]) = some t' ∧
      t.opened.length = t'.opened.length + 1 := by
  obtain ⟨roots, opened⟩ := t
  cases opened with
  | nil => cases hopen
  | cons c outer =>
    refine ⟨_, read_concat h (CallTree.step_exit roots c outer ts), ?_⟩
    rw [CallTree.length_opened_hang]
    rfl

/-- The two branches of `on_enter`: a new entry, -/
theorem onEnter_push {top : ReturnEntry} {below : List ReturnEntry} {tracked : List (CallRecord K)}
    {stackPtr : Nat} (h : top.stackPtr ≠ stackPtr) (contents : Nat) (ts : Int) (callee : Option K) :
    onEnter ⟨top :: below, tracked⟩ stackPtr contents ts callee =
      some ⟨⟨stackPtr, contents⟩ :: top :: below, tracked ++ [⟨ts, callee⟩]⟩ := by
  simp only [onEnter, if_pos h]
  rfl

/-- or an exit and an enter in one entry's place. -/
theorem onEnter_tail {top : ReturnEntry} {below : List ReturnEntry} {tracked : List (CallRecord K)}
    {stackPtr : Nat} (h : top.stackPtr = stackPtr) (contents : Nat) (ts : Int) (callee : Option K) :
    onEnter ⟨top :: below, tracked⟩ stackPtr contents ts callee =
      some ⟨top :: below, tracked ++ [⟨ts, none⟩] ++ [⟨ts, callee⟩]⟩ := by
  simp only [onEnter, if_neg (not_not.mpr h)]
  rfl

/-- The two branches of the loop: one entry more goes, -/
theorem unwind_go {top next : ReturnEntry} {below : List ReturnEntry} {stackPtr : Nat}
    (h : next.stackPtr ≤ stackPtr) (ts : Int) (tracked : List (CallRecord K)) :
    unwind stackPtr ts (top :: next :: below) tracked =
      unwind stackPtr ts (next :: below) (tracked ++ [⟨ts, none⟩]) := by
  rw [unwind, if_pos h]

/-- or it was the last. -/
theorem unwind_stop {top next : ReturnEntry} {below : List ReturnEntry} {stackPtr : Nat}
    (h : stackPtr < next.stackPtr) (ts : Int) (tracked : List (CallRecord K)) :
    unwind stackPtr ts (top :: next :: below) tracked =
      some (top.returnAddress, ⟨next :: below, tracked ++ [⟨ts, none⟩]⟩) := by
  rw [unwind, if_neg (not_le.mpr h)]

/-- **`on_enter`** always returns and adds a well-nested piece to the trace. -/
theorem onEnter_collected {c : CallsCollectorThread K} (h : Collected c) {stackPtr : Nat}
    (hsp : stackPtr < topOfStack) (contents : Nat) (ts : Int) (k : K) :
    ∃ c', c.onEnter stackPtr contents ts (some k) = some c' ∧ Collected c' := by
  obtain ⟨returnStack, tracked⟩ := c
  obtain ⟨⟨entries, hstack, hbelow⟩, t, hread, hdepth⟩ := h
  obtain rfl : returnStack = entries ++ [sentinel] := hstack
  obtain ⟨top, below, htop⟩ : ∃ top below, entries ++ [sentinel] = top :: below :=
    List.exists_cons_of_ne_nil (by simp)
  by_cases heq : top.stackPtr = stackPtr
  · -- a tail call, of an entered frame: the sentinel's stack pointer is never passed
    have hne : entries ≠ [] := by
      rintro rfl
      obtain ⟨rfl, -⟩ : sentinel = top ∧ [] = below := by simpa using htop
      rw [← heq] at hsp
      exact absurd hsp (lt_irrefl _)
    have hopen : 0 < t.opened.length := by
      have := List.length_pos_of_ne_nil hne
      simp only [List.length_append, List.length_cons, List.length_nil] at hdepth
      omega
    obtain ⟨t₁, ht₁, hlen₁⟩ := read_exit hread ts hopen
    obtain ⟨t', ht', hlen⟩ := read_enter ht₁ ts k
    refine ⟨_, by rw [htop]; exact onEnter_tail heq contents ts (some k), ?_⟩
    refine ⟨⟨entries, htop.symm, hbelow⟩, t', ht', ?_⟩
    rw [htop] at hdepth
    simp only at hdepth ⊢
    omega
  · -- a new entry, and one call more that is open
    obtain ⟨t', ht', hlen⟩ := read_enter hread ts k
    refine ⟨_, by rw [htop]; exact onEnter_push heq contents ts (some k), ?_⟩
    refine ⟨⟨⟨stackPtr, contents⟩ :: entries, by rw [List.cons_append, htop], ?_⟩, t', ht', ?_⟩
    · intro e he
      rcases List.mem_cons.mp he with rfl | he
      · exact hsp
      · exact hbelow e he
    · rw [htop] at hdepth
      simp only [List.length_cons] at hdepth ⊢
      omega

/-- **`on_exit`** stops at the sentinel at the latest, and each pop is one exit of the trace. -/
theorem unwind_collected {stackPtr : Nat} (hsp : stackPtr < topOfStack) (ts : Int) :
    ∀ (entries : List ReturnEntry) (top : ReturnEntry) (tracked : List (CallRecord K))
      (t : CallTree K), (∀ e ∈ entries, e.stackPtr < topOfStack) →
      CallTree.read tracked = some t → t.opened.length = entries.length + 1 →
      ∃ ra c', unwind stackPtr ts (top :: (entries ++ [sentinel])) tracked = some (ra, c') ∧
        Collected c' := by
  intro entries
  induction entries with
  | nil =>
    intro top tracked t _ hread hlen
    obtain ⟨t', ht', hlen'⟩ := read_exit hread ts (by omega)
    refine ⟨_, _, unwind_stop hsp ts tracked, ?_⟩
    refine ⟨⟨[], rfl, fun _ h => absurd h List.not_mem_nil⟩, t', ht', ?_⟩
    simp only [List.length_nil, List.length_cons] at hlen ⊢
    omega
  | cons next entries ih =>
    intro top tracked t hbelow hread hlen
    simp only [List.length_cons] at hlen
    obtain ⟨t', ht', hlen'⟩ := read_exit hread ts (by omega)
    -- the loop ends here, or goes on to the next entry, and the induction with it
    rcases Nat.lt_or_ge stackPtr next.stackPtr with hstop | hgo
    · refine ⟨_, _, unwind_stop hstop ts tracked, ?_⟩
      refine ⟨⟨next :: entries, rfl, hbelow⟩, t', ht', ?_⟩
      show (next :: (entries ++ [sentinel])).length = _
      simp only [List.length_cons, List.length_append, List.length_nil]
      omega
    · obtain ⟨ra, c', hc', hcol⟩ := ih next _ t'
        (fun e he => hbelow e (List.mem_cons_of_mem _ he)) ht' (by omega)
      exact ⟨ra, c', (unwind_go hgo ts tracked).trans hc', hcol⟩

/-- **One allowed notification** is served and keeps the invariant. -/
theorem notify_collected {c : CallsCollectorThread K} (h : Collected c) {n : Notification K}
    (hn : n.Allowed c) : ∃ c', c.notify n = some c' ∧ Collected c' := by
  cases n with
  | enter stackPtr contents ts k => exact onEnter_collected h hn contents ts k
  | exit stackPtr ts =>
    obtain ⟨⟨entries, hstack, hbelow⟩, t, hread, hdepth⟩ := h
    obtain ⟨hsp, hlen⟩ := hn
    cases entries with
    -- an exit with nothing entered is not allowed
    | nil => rw [hstack] at hlen; simp at hlen
    | cons top entries =>
      rw [hstack] at hdepth
      simp only [List.cons_append, List.length_cons, List.length_append, List.length_nil] at hdepth
      obtain ⟨ra, c', hc', hcol⟩ := unwind_collected hsp ts entries top c.tracked t
        (fun e he => hbelow e (List.mem_cons_of_mem _ he)) hread (by omega)
      exact ⟨c', by rw [notify, onExit, hstack, List.cons_append, hc']; rfl, hcol⟩

/-- The step lemma, -/
theorem step_collected (c : CallsCollectorThread K) (n : Notification K)
    (c' : CallsCollectorThread K) (h : Collected c) (hstep : c.step n = some c') :
    Collected c' :=
  Lib.of_allowed (fun hn => notify_collected h hn) hstep

/-- and the run lemma. -/
theorem run_collected {notifications : List (Notification K)} {c : CallsCollectorThread K}
    (h : Lib.run step new notifications = some c) : Collected c :=
  Lib.run_invariant step_collected notifications new c new_collected h

/-! ## The trace is consumable -/

/-- One `update` call per batch, each on whatever map it is given. -/
def consume [DecidableEq K] (s : ShadowStack K) (batch : List (CallRecord K) × NodesMap K) :
    Option (ShadowStack K) :=
  (s.update batch.1 batch.2).map Prod.fst

/-- **The consumer**: a trace with a reading, cut into any batches and replayed into any maps,
    never pops the root record. -/
theorem consume_inStep [DecidableEq K] {o : Overhead} {s : ShadowStack K} {t t' : CallTree K}
    (hs : ShadowStack.InStep o s t) (batches : List (List (CallRecord K) × NodesMap K))
    (ht : Lib.run CallTree.step t (batches.map Prod.fst).flatten = some t') :
    ∃ s', Lib.run consume s batches = some s' ∧ ShadowStack.InStep o s' t' := by
  rw [← Lib.run_flatten, ← Lib.run_map] at ht
  -- one batch is one `update`, which refines reading it
  have hstep : ∀ (s : ShadowStack K) (t : CallTree K) (batch : List (CallRecord K) × NodesMap K) t',
      ShadowStack.InStep o s t → Lib.run CallTree.step t batch.1 = some t' →
      ∃ s', consume s batch = some s' ∧ ShadowStack.InStep o s' t' := by
    intro s t batch t' hs ht
    obtain ⟨m', hm'⟩ := ShadowStack.exists_replayBatch o batch.2 ht
    obtain ⟨s', hs', hin⟩ := ShadowStack.update_refines hs hm'
    exact ⟨s', by rw [consume, hs']; rfl, hin⟩
  exact Lib.run_simulates hstep batches s t t' hs ht

/-- **Collected traces are always consumable.**  After any sequence of allowed notifications: the
    next allowed one is served; the trace has no prefix with more exits than enters; its open depth
    is the size of the return stack less the sentinel, which is still at the bottom; and any prefix
    of the trace, cut into any batches, is replayed to its end by the shadow stack, leaving one
    record per open call above the root record. -/
theorem trace_consumable [DecidableEq K] (notifications : List (Notification K))
    (c : CallsCollectorThread K) (h : Lib.run step new notifications = some c) :
    (∀ n : Notification K, n.Allowed c → ∃ c', c.notify n = some c') ∧
    (∀ p, p <+: c.tracked → exits p ≤ enters p) ∧
    enters c.tracked - exits c.tracked = c.returnStack.length - 1 ∧
    c.returnStack.getLast? = some sentinel ∧
    ∀ (o : Overhead) (bottom : StackRecord K) (batches : List (List (CallRecord K) × NodesMap K)),
      (batches.map Prod.fst).flatten <+: c.tracked →
      ∃ s, Lib.run consume (ShadowStack.new o bottom) batches = some s ∧
        s.stack.length = enters (batches.map Prod.fst).flatten
          - exits (batches.map Prod.fst).flatten + 1 := by
  have hc := run_collected h
  obtain ⟨t, hread, hdepth⟩ := hc.depth
  -- a trace that has a reading is well nested
  have hnested : WellNested c.tracked := (CallTree.wellNested_iff _).mpr ⟨t, hread⟩
  refine ⟨?_, hnested, ?_, ?_, ?_⟩
  · intro n hn
    obtain ⟨c', hc', _⟩ := notify_collected hc hn
    exact ⟨c', hc'⟩
  · have := CallTree.depth_run _ _ _ hread
    simp only [CallTree.empty, List.length_nil] at this
    omega
  · obtain ⟨entries, hstack, _⟩ := hc.bottom
    rw [hstack, List.getLast?_concat]
  · intro o bottom batches hskipped
    -- a prefix of a well-nested trace is well nested, hence has a reading of its own
    obtain ⟨t₁, ht₁⟩ := (CallTree.wellNested_iff (batches.map Prod.fst).flatten).mp
      fun p hp => hnested p (hp.trans hskipped)
    obtain ⟨s, hs, hin⟩ := consume_inStep (ShadowStack.new_inStep o bottom) batches ht₁
    refine ⟨s, hs, ?_⟩
    have hframes := hin.frames.length
    have := CallTree.depth_run _ _ _ ht₁
    simp only [CallTree.empty, List.length_nil] at this
    omega

/-- Two nested calls, a tail call in the inner one, then an exit that skips both frames. -/
theorem trace_consumable_skipping :
    ∃ c : CallsCollectorThread Nat,
      Lib.run step new [.enter 100 1 10 7, .enter 90 2 11 8, .enter 90 3 12 9, .exit 100 13]
        = some c ∧ (∀ p, p <+: c.tracked → exits p ≤ enters p) := by
  refine ⟨_, rfl, ?_⟩
  exact (trace_consumable [.enter 100 1 10 7, .enter 90 2 11 8, .enter 90 3 12 9, .exit 100 13]
    _ rfl).2.1

end CallsCollectorThread

end MicroProfiler
