/-
  `join(t, t, left_by, right_by)`: a table joined with itself.

  1. **The code** — `selfJoin` and the slots, which are those of `Sdb.Join`, all connected to one
     table: on each signal the left side's slot runs first and the right side's next.  Two keyers of
     one type share one index (`shared`): `multi_index` finds the component that is there.

  2. **Who is listed twice** (`Repeats`) — the set-up pairs from the left only.  When a record is
     committed later it is in both indexes by the time the slots run, so each of them pairs it with
     itself.

  3. **When the join keeps its meaning** (`self_join_exact`) — in exactly those states in which no
     record committed since the set-up matches itself.
-/
import MicroProfiler.Sdb.Join

namespace MicroProfiler.Sdb

variable {ι T Q : Type} {K : ι → Type}

/-- The keyers of the join, and whether they are of one type.  A table looks its indexes up by the
    keyer's type, so that keyers of one type are taken for one function. -/
structure SelfKeyers (T Q : Type) where
  leftBy : T → Q
  rightBy : T → Q
  shared : Bool
  one_type : shared = true → leftBy = rightBy

/-- A table that can be joined with itself: the index by `left_by` is `none`, that by `right_by` is
    `some none`, unless they are one. -/
abbrev SelfTable (T Q : Type) (K : ι → Type) := SideTable T Q (JoinKeys K Q)

/-- Such a table in use. -/
abbrev SelfSession (T Q : Type) (K : ι → Type) := SideSession T Q (JoinKeys K Q)

/-- `multi_index(left, left_by)`, once it is obtained. -/
def leftIndex (t : SelfTable T Q K) : Option (Index T Q) := t.components none

/-- `multi_index(right, right_by)`, once it is obtained. -/
def rightIndex (ks : SelfKeyers T Q) (t : SelfTable T Q K) : Option (Index T Q) :=
  if ks.shared then t.components none else t.components (some none)

/-- `multi_index(left, left_by)`. -/
def obtainLeft [DecidableEq ι] (ks : SelfKeyers T Q) (t : SelfTable T Q K) : SelfTable T Q K :=
  t.component none ks.leftBy .hashed

/-- `multi_index(right, right_by)`, which finds the left one where the types are one. -/
def obtainRight [DecidableEq ι] (ks : SelfKeyers T Q) (t : SelfTable T Q K) : SelfTable T Q K :=
  if ks.shared then t.component none ks.rightBy .hashed
  else t.component (some none) ks.rightBy .hashed

/-- The slots of `created`. -/
def selfCreated [DecidableEq Q] (m : Maker (Handle × Handle)) (ks : SelfKeyers T Q)
    (table : SelfTable T Q K) (record : Handle) (joined : JoinedTable) : Option JoinedTable :=
  -- the slot of the left side looks the record up in the right index, and the other way round
  ((rightIndex ks table).bind fun x => onCreate m .left ks.leftBy table x record joined).bind
    fun joined => (leftIndex table).bind fun x =>
      onCreate m .right ks.rightBy table x record joined

/-- The slots of `modified`. -/
def selfModified (record : Handle) (joined : JoinedTable) : Option JoinedTable :=
  (onModify .left record joined).bind (onModify .right record)

/-- The slots of `removed`. -/
def selfRemoved (record : Handle) (joined : JoinedTable) : Option JoinedTable :=
  (onRemove .left record joined).bind (onRemove .right record)

/-- The set-up: the index by `right_by` is obtained first. -/
def selfJoin [DecidableEq ι] [DecidableEq Q] (m : Maker (Handle × Handle)) (ks : SelfKeyers T Q)
    (t : SelfTable T Q K) : Option (SelfTable T Q K × JoinedTable) :=
  let t := obtainLeft ks (obtainRight ks t)
  -- only the left side is walked, as if it were another table
  (rightIndex ks t).bind fun x =>
    (Lib.run (fun joined record => onCreate m .left ks.leftBy t x record joined) handleIndexes
      t.handles).map fun joined => (t, joined)

/-! ## The indexes of the join -/

section

variable {ks : SelfKeyers T Q} {t t' : SelfTable T Q K} {pending : List Handle}

/-- Those of the join's indexes that are there have its keyers. -/
structure SelfKeyed (ks : SelfKeyers T Q) (t : SelfTable T Q K) : Prop where
  /-- a user may have obtained it before -/
  left : ∀ k, t.keyerOf none = some k → k = ks.leftBy
  right : ∀ k, t.keyerOf (some none) = some k → k = ks.rightBy

/-- It is a statement on keyers alone. -/
theorem SelfKeyed.congr (h : SelfKeyed ks t) (hleft : t'.keyerOf none = t.keyerOf none)
    (hright : t'.keyerOf (some none) = t.keyerOf (some none)) : SelfKeyed ks t' where
  left := fun k hk => h.left k (hleft.symm.trans hk)
  right := fun k hk => h.right k (hright.symm.trans hk)

/-- They are there. -/
structure SelfIndexed (ks : SelfKeyers T Q) (t : SelfTable T Q K) : Prop where
  left : t.keyerOf none = some ks.leftBy
  right : ks.shared = false → t.keyerOf (some none) = some ks.rightBy

/-- So is this. -/
theorem SelfIndexed.congr (h : SelfIndexed ks t) (hleft : t'.keyerOf none = t.keyerOf none)
    (hright : t'.keyerOf (some none) = t.keyerOf (some none)) : SelfIndexed ks t' where
  left := hleft.trans h.left
  right := fun hshared => hright.trans (h.right hshared)

/-- The left index is exact, whatever else the table has. -/
theorem SelfIndexed.leftIndex (h : SelfIndexed ks t) (hcon : t.Consistent pending) :
    ∃ x, leftIndex t = some x ∧ x.keyer = ks.leftBy ∧ x.Exact (t.settled pending) := by
  obtain ⟨x, hx, hkeyer⟩ := Option.map_eq_some_iff.mp h.left
  exact ⟨x, hx, hkeyer, hcon.exact none x hx⟩

/-- So is the right one, which may be the left. -/
theorem SelfIndexed.rightIndex (h : SelfIndexed ks t) (hcon : t.Consistent pending) :
    ∃ x, rightIndex ks t = some x ∧ x.keyer = ks.rightBy ∧ x.Exact (t.settled pending) := by
  unfold Sdb.rightIndex
  cases hshared : ks.shared with
  -- one index for both: its keyer is either of the two
  | true =>
    obtain ⟨x, hx, hkeyer, hexact⟩ := h.leftIndex hcon
    exact ⟨x, hx, hkeyer.trans (ks.one_type hshared), hexact⟩
  | false =>
    obtain ⟨x, hx, hkeyer⟩ := Option.map_eq_some_iff.mp (h.right hshared)
    exact ⟨x, hx, hkeyer, hcon.exact (some none) x hx⟩

variable [DecidableEq ι]

/-- **Obtaining the left index** leaves the right one. -/
theorem SelfKeyed.obtainLeft (h : SelfKeyed ks t) (hcon : t.Consistent []) :
    (obtainLeft ks t).Consistent [] ∧ SelfKeyed ks (obtainLeft ks t) ∧
      (obtainLeft ks t).keyerOf none = some ks.leftBy ∧
      (obtainLeft ks t).keyerOf (some none) = t.keyerOf (some none) ∧
      (obtainLeft ks t).records = t.records := by
  have hself := Table.keyerOf_component_self (i := none) h.left .hashed
  -- the right index is of another type
  have hother : (t.component none ks.leftBy .hashed).keyerOf (some none) = t.keyerOf (some none) := by
    rcases t.keyerOf_component none ks.leftBy .hashed (some none) with hsame | ⟨heq, _⟩
    · exact hsame
    · cases heq
  refine ⟨hcon.component none ks.leftBy .hashed, ⟨?_, ?_⟩, hself, hother,
    t.records_component none ks.leftBy .hashed⟩
  · intro k hk
    exact Option.some.inj (hk.symm.trans hself)
  · intro k hk
    exact h.right k (hother.symm.trans hk)

/-- **Obtaining the right index**: the left one is there then if they are one, else as before. -/
theorem SelfKeyed.obtainRight (h : SelfKeyed ks t) (hcon : t.Consistent []) :
    (obtainRight ks t).Consistent [] ∧ SelfKeyed ks (obtainRight ks t) ∧
      (ks.shared = false → (obtainRight ks t).keyerOf (some none) = some ks.rightBy) ∧
      (t.keyerOf none = some ks.leftBy → (obtainRight ks t).keyerOf none = some ks.leftBy) ∧
      (obtainRight ks t).records = t.records := by
  unfold Sdb.obtainRight
  cases hshared : ks.shared with
  -- one type: it is the left one that is obtained
  | true =>
    obtain ⟨hcon', hkeyed, hself, hother, hrecords⟩ := h.obtainLeft hcon
    rw [Sdb.obtainLeft, ks.one_type hshared] at hcon' hkeyed hself hother hrecords
    refine ⟨hcon', hkeyed, fun hno => absurd hno.symm Bool.false_ne_true, fun _ => ?_, hrecords⟩
    exact hself.trans (congrArg some (ks.one_type hshared).symm)
  | false =>
    have hself := Table.keyerOf_component_self (i := some none) h.right .hashed
    have hother : (t.component (some none) ks.rightBy .hashed).keyerOf none = t.keyerOf none := by
      rcases t.keyerOf_component (some none) ks.rightBy .hashed none with hsame | ⟨heq, _⟩
      · exact hsame
      · cases heq
    refine ⟨hcon.component (some none) ks.rightBy .hashed, ⟨?_, ?_⟩, fun _ => hself,
      fun hleft => hother.trans hleft, t.records_component (some none) ks.rightBy .hashed⟩
    · intro k hk
      exact h.left k (hother.symm.trans hk)
    · intro k hk
      exact Option.some.inj (hk.symm.trans hself)

end

/-! ## What the slots do -/

/-- The joined table lists the matching pairs of settled records, those of a late one with itself
    twice. -/
structure SelfFollows (ks : SelfKeyers T Q) (s : SelfSession T Q K) (late : List Handle)
    (joined : JoinedTable) : Prop where
  indexed : SelfIndexed ks s.table
  /-- the joined table's own indexes find the pairs of a record -/
  linked : Linked joined
  /-- twice exactly for those in `late` -/
  repeats : Lib.Repeats ks.leftBy ks.rightBy (s.table.settled s.pending) (· ∈ late) (pairs joined)

section

variable {ks : SelfKeyers T Q} {s c : SelfSession T Q K} {late : List Handle} {joined : JoinedTable}

/-- **A record is committed** for the first time: by then it is in both indexes. -/
theorem SelfFollows.created [DecidableEq Q] (h : SelfFollows ks s late joined)
    (hs : s.table.Consistent s.pending) (hc : c.table.Consistent c.pending) {record : Handle}
    (hpending : record ∈ s.pending) (hrecords : c.table.records = s.table.records)
    (hkeyer : ∀ i, c.table.keyerOf i = s.table.keyerOf i)
    (hpending' : c.pending = s.pending.filter fun h => h ≠ record) (m : Maker (Handle × Handle)) :
    ∃ joined', selfCreated m ks c.table record joined = some joined' ∧
      SelfFollows ks c (record :: late) joined' := by
  have hindexed : SelfIndexed ks c.table := h.indexed.congr (hkeyer none) (hkeyer (some none))
  obtain ⟨v, hmem⟩ := Table.exists_value (hs.live record hpending)
  obtain ⟨x, hx, hxkeyer, hxexact⟩ := hindexed.rightIndex hc
  obtain ⟨y, hy, hykeyer, hyexact⟩ := hindexed.leftIndex hc
  have hlookup : c.table.lookup record = some v := by
    rw [Table.lookup_eq_some hc.nodup, hrecords]
    exact hmem
  -- the left side's slot adds the pairs the record is left in, the right side's the others
  obtain ⟨joined₁, hleft, hlinked₁, hpairs₁⟩ := h.linked.onCreate m .left ks.leftBy hlookup x
  obtain ⟨joined₂, hright, hlinked₂, hpairs₂⟩ := hlinked₁.onCreate m .right ks.rightBy hlookup y
  refine ⟨joined₂, ?_, hindexed, hlinked₂, ?_⟩
  · unfold selfCreated
    rw [hx, Option.bind_some, hleft, Option.bind_some, hy, Option.bind_some]
    exact hright
  · simp only [List.mem_cons]
    rw [hpairs₂, hpairs₁]
    -- both ranges have the record itself if it matches itself, which makes that pair a double
    refine h.repeats.added (v := v) ?_ ?_ (hxexact.nodup_equalRange (Table.nodup_settled hc.nodup) _)
      (hyexact.nodup_equalRange (Table.nodup_settled hc.nodup) _) ?_ ?_
    · rw [hpending']
      exact Table.mem_settled_commit hrecords hs.nodup hmem hpending
    · intro v' hv'
      exact of_decide_eq_true (List.mem_filter.mp hv').2 hpending
    · intro j
      rw [← hxkeyer]
      exact hxexact.mem_equalRange
    · intro j
      rw [← hykeyer]
      exact hyexact.mem_equalRange

/-- A modification keeps the keys, so that no pair changes. -/
theorem SelfFollows.modified (h : SelfFollows ks s late joined) (record : Handle) :
    selfModified record joined = some joined := by
  rw [selfModified, h.linked.onModify .left, Option.bind_some, h.linked.onModify .right]

/-- **A record is removed**: each side's slot takes the pairs it finds. -/
theorem SelfFollows.removed [DecidableEq ι] (h : SelfFollows ks s late joined)
    (hs : s.table.Consistent s.pending) (record : Handle) :
    ∃ joined', selfRemoved record joined = some joined' ∧
      SelfFollows ks ⟨(s.table.notifyRemoved record).erase record,
        s.pending.filter fun h => h ≠ record⟩ (late.filter fun h => h ≠ record) joined' := by
  obtain ⟨joined₁, hleft, hlinked₁, hpairs₁⟩ := h.linked.onRemove .left record
  obtain ⟨joined₂, hright, hlinked₂, hpairs₂⟩ := hlinked₁.onRemove .right record
  have hindexed : SelfIndexed ks ((s.table.notifyRemoved record).erase record) :=
    h.indexed.congr (hs.keyerOf_notifyRemoved record none)
      (hs.keyerOf_notifyRemoved record (some none))
  refine ⟨joined₂, by rw [selfRemoved, hleft, Option.bind_some, hright], hindexed, hlinked₂, ?_⟩
  rw [Table.settled_erase, Table.settled_notifyRemoved, hpairs₂, hpairs₁]
  -- of the remaining records, late is who was
  refine h.repeats.dropped record fun j hj => ?_
  rw [List.mem_filter, decide_eq_true_eq]
  exact and_iff_left hj

/-- **The table is cleared**, and the joined table with it, twice. -/
theorem SelfFollows.cleared [DecidableEq ι] (h : SelfFollows ks s late joined)
    (hs : s.table.Consistent s.pending) :
    SelfFollows ks ⟨s.table.clear, []⟩ [] joined.clear.clear where
  indexed := h.indexed.congr (hs.keyerOf_clear none) (hs.keyerOf_clear (some none))
  linked := h.linked.clear.clear
  repeats := (Lib.joins_nil _).repeats fun _ => List.not_mem_nil

/-- Only the keys of the settled records matter. -/
theorem SelfFollows.congr (h : SelfFollows ks s late joined) (hindexed : SelfIndexed ks c.table)
    (hleft : ∀ i q, (∃ v, (i, v) ∈ s.table.settled s.pending ∧ ks.leftBy v = q) ↔
      ∃ v, (i, v) ∈ c.table.settled c.pending ∧ ks.leftBy v = q)
    (hright : ∀ i q, (∃ v, (i, v) ∈ s.table.settled s.pending ∧ ks.rightBy v = q) ↔
      ∃ v, (i, v) ∈ c.table.settled c.pending ∧ ks.rightBy v = q) :
    SelfFollows ks c late joined :=
  ⟨hindexed, h.linked, h.repeats.congr hleft hright⟩

/-- In particular if they are the same records. -/
theorem SelfFollows.of_settled (h : SelfFollows ks s late joined) (hindexed : SelfIndexed ks c.table)
    (hsettled : c.table.settled c.pending = s.table.settled s.pending) :
    SelfFollows ks c late joined :=
  ⟨hindexed, h.linked, hsettled ▸ h.repeats⟩

/-- **The set-up** pairs from the left only: nothing is listed twice. -/
theorem selfJoin_follows [DecidableEq ι] [DecidableEq Q] (hs : s.table.Consistent s.pending)
    (hkeyed : SelfKeyed ks s.table) (hpending : s.pending = []) (m : Maker (Handle × Handle)) :
    ∃ t joined, selfJoin m ks s.table = some (t, joined) ∧ t.Consistent [] ∧ SelfKeyed ks t ∧
      SelfFollows ks { s with table := t } [] joined := by
  obtain ⟨table, pending⟩ := s
  obtain rfl : pending = [] := hpending
  -- the two indexes, in the order of the code
  obtain ⟨hcon₁, hkeyed₁, hright₁, _, _⟩ := hkeyed.obtainRight hs
  obtain ⟨hcon, hkeyed', hleft, hother, _⟩ := hkeyed₁.obtainLeft hcon₁
  have hindexed : SelfIndexed ks (obtainLeft ks (obtainRight ks table)) :=
    ⟨hleft, fun hshared => hother.trans (hright₁ hshared)⟩
  obtain ⟨x, hx, hxkeyer, hxexact⟩ := hindexed.rightIndex hcon
  rw [Table.settled_nil] at hxexact
  -- then the records, from the left
  obtain ⟨joined, hrun, hlinked, hjoins⟩ := populateJoined hcon hxexact hcon.nodup hxkeyer m
    _ [] handleIndexes rfl handleIndexes_linked (Lib.joins_nil _)
  refine ⟨_, joined, ?_, hcon, hkeyed', hindexed, hlinked, ?_⟩
  · simp only [selfJoin]
    rw [hx]
    show (Lib.run _ _ _).map _ = _
    exact congrArg (Option.map _) hrun
  · show Lib.Repeats _ _ (Table.settled _ []) _ _
    rw [Table.settled_nil]
    exact hjoins.repeats fun _ => List.not_mem_nil

end

/-- A table in use and, once it is joined with itself, the joined table; `late` are the live records
    that were committed since. -/
structure SelfJoined (T Q : Type) (K : ι → Type) where
  side : SelfSession T Q K
  joined : Option JoinedTable
  late : List Handle

inductive SelfAction (T Q : Type) (K : ι → Type) where
  /-- an operation of a user, with what the joined table's allocator gives meanwhile -/
  | on (op : Operation (Option (Option ι)) T (JoinKeys (JoinKeys K Q) Q)) (m : Maker (Handle × Handle))
  /-- obtaining an index the join uses, before or after it is set up -/
  | leftIndex
  | rightIndex
  /-- the set-up -/
  | join (m : Maker (Handle × Handle))

namespace SelfJoined

/-- A table that is joined with nothing. -/
def new : SelfJoined T Q K := ⟨.new, none, []⟩

variable [DecidableEq ι] [DecidableEq Q] [∀ i, DecidableEq (K i)]

/-- As for the join of two tables. -/
def Allowed (s : SelfJoined T Q K) : SelfAction T Q K → Prop
  | .on op _ => s.side.Allowed op ∧ op.Spares none ∧ op.Spares (some none)
  | .leftIndex => s.side.pending = []
  | .rightIndex => s.side.pending = []
  | .join _ => s.side.pending = [] ∧ s.joined.isNone

instance (s : SelfJoined T Q K) (a : SelfAction T Q K) : Decidable (s.Allowed a) := by
  cases a <;> unfold Allowed <;> infer_instance

/-- An operation on the table, and the slots it triggers. -/
def performOn (ks : SelfKeyers T Q) (s : SelfJoined T Q K) (m : Maker (Handle × Handle)) :
    Operation (Option (Option ι)) T (JoinKeys (JoinKeys K Q) Q) → Option (SelfJoined T Q K)
  | .commit record =>
      -- `created` for a new record, `modified` for one committed before
      let slots (table : SelfTable T Q K) (joined : JoinedTable) :=
        if record ∈ s.side.pending then selfCreated m ks table record joined
        else selfModified record joined
      (s.side.perform (.commit record)).bind fun side =>
        (emit (slots side.table) s.joined).map fun joined =>
          ⟨side, joined,
            if record ∈ s.side.pending ∧ s.joined.isSome then record :: s.late else s.late⟩
  | .remove record =>
      let notified := s.side.table.notifyRemoved record
      (emit (selfRemoved record) s.joined).map fun joined =>
        ⟨⟨notified.erase record, s.side.pending.filter fun h => h ≠ record⟩, joined,
          s.late.filter fun h => h ≠ record⟩
  -- both slots of `cleared` clear the joined table
  | .clear => some ⟨⟨s.side.table.clear, []⟩, s.joined.map fun joined => joined.clear.clear, []⟩
  | op => (s.side.perform op).map fun side => { s with side := side }

/-- One action of the system. -/
def perform (ks : SelfKeyers T Q) (s : SelfJoined T Q K) :
    SelfAction T Q K → Option (SelfJoined T Q K)
  | .on op m => s.performOn ks m op
  | .leftIndex => some { s with side.table := obtainLeft ks s.side.table }
  | .rightIndex => some { s with side.table := obtainRight ks s.side.table }
  | .join m => (selfJoin m ks s.side.table).map fun r =>
      ⟨{ s.side with table := r.1 }, some r.2, []⟩

/-- No step for what is not allowed. -/
def step (ks : SelfKeyers T Q) (s : SelfJoined T Q K) (a : SelfAction T Q K) :
    Option (SelfJoined T Q K) :=
  if s.Allowed a then s.perform ks a else none

/-! ## Every action -/

variable {ks : SelfKeyers T Q}

/-- The invariant. -/
structure Sound (ks : SelfKeyers T Q) (s : SelfJoined T Q K) : Prop where
  /-- the table and its indexes -/
  consistent : s.side.table.Consistent s.side.pending
  keyed : SelfKeyed ks s.side.table
  /-- and the joined table, once it is there -/
  follows : ∀ j, s.joined = some j → SelfFollows ks s.side s.late j

omit [DecidableEq ι] [DecidableEq Q] [∀ i, DecidableEq (K i)] in
/-- It holds before anything has happened. -/
theorem new_sound : Sound ks (new : SelfJoined T Q K) where
  consistent := Table.empty_consistent
  keyed := by constructor <;> intro k hk <;> cases hk
  follows := by
    intro j hj
    cases hj

/-- **A commit**: a new record goes through both slots, another one changes nothing. -/
theorem commit_sound {s : SelfJoined T Q K} (h : Sound ks s) (record : Handle)
    (m : Maker (Handle × Handle)) :
    ∃ s', s.performOn ks m (.commit record) = some s' ∧ Sound ks s' := by
  obtain ⟨⟨t, pending⟩, joined, late⟩ := s
  unfold performOn
  -- `created` or `modified`
  by_cases hpending : record ∈ pending
  · obtain ⟨t', hperform, hrecords, hkeyer, hcon⟩ :=
      Session.perform_commit_pending h.consistent hpending
    simp only [hperform, Option.bind_some, if_pos hpending]
    have hslots := fun j hj => (h.follows j hj).created
      (c := ⟨t', pending.filter fun h => h ≠ record⟩) h.consistent hcon hpending hrecords hkeyer rfl m
    obtain ⟨joined', hemit, hfollows⟩ := emit_establishes hslots
    refine ⟨_, by rw [hemit]; rfl, hcon, h.keyed.congr (hkeyer none) (hkeyer (some none)), ?_⟩
    intro j hj
    have hjoined : joined.isSome := by rw [emit_isSome hemit, show joined' = some j from hj]; rfl
    simp only [if_pos (And.intro hpending hjoined)]
    exact hfollows j hj
  · have hperform := Session.perform_commit_settled h.consistent hpending
    simp only [hperform, Option.bind_some, if_neg hpending]
    have hslots : ∀ j, joined = some j → ∃ j', selfModified record j = some j' ∧
        SelfFollows ks ⟨t, pending⟩ late j' := fun j hj =>
      ⟨j, (h.follows j hj).modified record, h.follows j hj⟩
    obtain ⟨joined', hemit, hfollows⟩ := emit_establishes hslots
    refine ⟨⟨⟨t, pending⟩, joined', late⟩, ?_, h.consistent, h.keyed, hfollows⟩
    rw [hemit, Option.map_some, if_neg fun hin => hpending hin.1]

/-- **A removal**, with the slots in between. -/
theorem remove_sound {s : SelfJoined T Q K} (h : Sound ks s) {record : Handle}
    (hop : s.side.Allowed (.remove record)) (m : Maker (Handle × Handle)) :
    ∃ s', s.performOn ks m (.remove record) = some s' ∧ Sound ks s' := by
  obtain ⟨joined', hemit, hfollows⟩ := emit_establishes
    fun j hj => (h.follows j hj).removed h.consistent record
  refine ⟨_, by rw [performOn, hemit]; rfl, h.consistent.remove hop, ?_, hfollows⟩
  exact h.keyed.congr (h.consistent.keyerOf_notifyRemoved record none)
    (h.consistent.keyerOf_notifyRemoved record (some none))

/-- **A write** keeps every key by which the table is indexed, so both sides see what they saw. -/
theorem write_sound {s : SelfJoined T Q K} (h : Sound ks s) {record : Handle} {value : T}
    (hop : s.side.Allowed (.write record value)) (m : Maker (Handle × Handle)) :
    ∃ s', s.performOn ks m (.write record value) = some s' ∧ Sound ks s' := by
  obtain ⟨side, hside, hcon⟩ := Session.perform_consistent h.consistent hop
  obtain rfl : { s.side with table := s.side.table.write record value } = side :=
    Option.some.inj hside
  refine ⟨_, rfl, hcon, h.keyed.congr rfl rfl, ?_⟩
  intro j hj
  have hindexed := (h.follows j hj).indexed
  have hleft := Session.keys_of_write h.consistent hop hindexed.left
  refine (h.follows j hj).congr (hindexed.congr rfl rfl) hleft ?_
  -- with one index for both the two sides see the same key
  cases hshared : ks.shared with
  | true => exact ks.one_type hshared ▸ hleft
  | false => exact Session.keys_of_write h.consistent hop (hindexed.right hshared)

/-- **What triggers no slot** leaves the settled records and the join's indexes. -/
theorem quiet_sound {s : SelfJoined T Q K} (h : Sound ks s)
    {op : Operation (Option (Option ι)) T (JoinKeys (JoinKeys K Q) Q)} (hop : s.side.Allowed op)
    (hquiet : op.Quiet) (hleft : op.Spares none) (hright : op.Spares (some none)) :
    ∃ s', (s.side.perform op).map (fun side => { s with side := side }) = some s' ∧
      Sound ks s' := by
  obtain ⟨side, hperform, hcon, hkeyer, hsettled⟩ :=
    Session.perform_quiet h.consistent hop hquiet hleft
  obtain ⟨side', hperform', _, hkeyer', _⟩ := Session.perform_quiet h.consistent hop hquiet hright
  obtain rfl : side = side' := Option.some.inj (hperform.symm.trans hperform')
  refine ⟨{ s with side := side }, by rw [hperform]; rfl, hcon, h.keyed.congr hkeyer hkeyer', ?_⟩
  intro j hj
  exact (h.follows j hj).of_settled ((h.follows j hj).indexed.congr hkeyer hkeyer') hsettled

/-- **One action** returns and keeps the invariant. -/
theorem perform_sound {s : SelfJoined T Q K} (h : Sound ks s) {a : SelfAction T Q K}
    (ha : s.Allowed a) : ∃ s', s.perform ks a = some s' ∧ Sound ks s' := by
  cases a with
  | on op m =>
    obtain ⟨hop, hleft, hright⟩ := ha
    -- an operation on the table, by the slots it triggers
    cases op with
    | commit record => exact commit_sound h record m
    | remove record => exact remove_sound h hop m
    | write record value => exact write_sound h hop m
    | clear =>
      refine ⟨_, rfl, h.consistent.clear, ?_, ?_⟩
      · exact h.keyed.congr (h.consistent.keyerOf_clear none) (h.consistent.keyerOf_clear (some none))
      · intro j hj
        obtain ⟨j₀, hj₀, rfl⟩ := Option.map_eq_some_iff.mp hj
        exact (h.follows j₀ hj₀).cleared h.consistent
    | create record value => exact quiet_sound h hop trivial hleft hright
    | index i keyer d => exact quiet_sound h hop trivial hleft hright
    | subscript i setKey key record value => exact quiet_sound h hop trivial hleft hright
  | leftIndex =>
    obtain ⟨⟨t, pending⟩, joined, late⟩ := s
    obtain rfl : pending = [] := ha
    obtain ⟨hcon, hkeyed, hleft, hother, hrecords⟩ := h.keyed.obtainLeft h.consistent
    refine ⟨_, rfl, hcon, hkeyed, ?_⟩
    intro j hj
    have hindexed := (h.follows j hj).indexed
    refine (h.follows j hj).of_settled
      ⟨hleft, fun hshared => hother.trans (hindexed.right hshared)⟩ ?_
    rw [Table.settled_nil, Table.settled_nil]
    exact hrecords
  | rightIndex =>
    obtain ⟨⟨t, pending⟩, joined, late⟩ := s
    obtain rfl : pending = [] := ha
    obtain ⟨hcon, hkeyed, hright, hleft, hrecords⟩ := h.keyed.obtainRight h.consistent
    refine ⟨_, rfl, hcon, hkeyed, ?_⟩
    intro j hj
    have hindexed := (h.follows j hj).indexed
    refine (h.follows j hj).of_settled ⟨hleft hindexed.left, hright⟩ ?_
    rw [Table.settled_nil, Table.settled_nil]
    exact hrecords
  | join m =>
    obtain ⟨hpending, _⟩ := ha
    obtain ⟨t, j, hjoin, hcon, hkeyed, hfollows⟩ := selfJoin_follows h.consistent h.keyed hpending m
    refine ⟨⟨{ s.side with table := t }, some j, []⟩, ?_, hpending ▸ hcon, hkeyed, ?_⟩
    · show (selfJoin m ks s.side.table).map _ = _
      rw [hjoin]
      rfl
    · rintro _ ⟨⟩
      exact hfollows

/-- The step lemma of the run. -/
theorem step_sound (s : SelfJoined T Q K) (a : SelfAction T Q K) (s' : SelfJoined T Q K)
    (h : Sound ks s) (hstep : s.step ks a = some s') : Sound ks s' :=
  Lib.of_allowed (fun ha => perform_sound h ha) hstep

/-- **When a self-join keeps its meaning.**  After any sequence of operations on the table, with the
    join set up at any point where nothing is pending, the next operation returns; and the joined
    table holds each pair of committed records whose keys are equal exactly once, and nothing else,
    if and only if no live record committed since the set-up matches itself. -/
theorem self_join_exact (actions : List (SelfAction T Q K)) (s : SelfJoined T Q K)
    (h : Lib.run (fun s a => s.step ks a) new actions = some s) :
    (∀ a, s.Allowed a → ∃ s', s.perform ks a = some s') ∧
    ∀ joined, s.joined = some joined →
      (((joined.records.map Prod.snd).Nodup ∧
        ∀ l r, (l, r) ∈ joined.records.map Prod.snd ↔
          ∃ v v', (l, v) ∈ s.side.table.settled s.side.pending ∧
            (r, v') ∈ s.side.table.settled s.side.pending ∧ ks.leftBy v = ks.rightBy v') ↔
        ∀ record v, (record, v) ∈ s.side.table.settled s.side.pending → record ∈ s.late →
          ks.leftBy v ≠ ks.rightBy v) := by
  have hsound := Lib.run_invariant step_sound actions new s new_sound h
  constructor
  · intro a ha
    obtain ⟨s', hs', _⟩ := perform_sound hsound ha
    exact ⟨s', hs'⟩
  · intro joined hj
    -- the doubles of the joined table are the late records that match themselves
    have hiff := (hsound.follows joined hj).repeats.joins_iff
    constructor
    · rintro ⟨hnodup, hmem⟩ record v hv hlate heq
      exact hiff.mp ⟨hnodup, fun p => hmem p.1 p.2⟩ record hlate ⟨v, v, hv, hv, heq⟩
    · intro hnone
      have hjoins := hiff.mpr fun record hlate hmatched => by
        obtain ⟨v, v', hv, hv', heq⟩ := hmatched
        -- a handle has one value
        have hsame := List.inj_on_of_nodup_map (Table.nodup_settled hsound.consistent.nodup) hv hv' rfl
        obtain rfl : v = v' := (Prod.mk.inj hsame).2
        exact hnone record v hv hlate heq
      exact ⟨hjoins.nodup, fun l r => hjoins.mem_iff (l, r)⟩

/-- `join<key_first, key_second>(t, t)`. -/
def firstBySecond : SelfKeyers (Nat × Nat) Nat where
  leftBy := Prod.fst
  rightBy := Prod.snd
  shared := false
  one_type := fun h => absurd h Bool.false_ne_true

/-- A record before the set-up, two after it, one of which goes again. -/
def linkedUp : List (SelfAction (Nat × Nat) Nat fun _ : Unit => Nat) :=
  let m := Maker.ascending fun _ => (0, 0)
  [.on (.create 10 (1, 2)) m, .on (.commit 10) m, .join m, .on (.create 20 (2, 1)) m,
    .on (.create 30 (1, 3)) m, .on (.commit 20) m, .on (.commit 30) m, .on (.write 30 (1, 3)) m,
    .on (.commit 30) m, .on (.remove 30) m]

theorem self_join_exact_linked :
    ∃ s joined, Lib.run (fun s a => s.step firstBySecond a) new linkedUp = some s ∧
      s.joined = some joined ∧ joined.records.map Prod.snd = [(20, 10), (10, 20)] ∧
      (joined.records.map Prod.snd).Nodup := by
  have hsummary : (Lib.run (fun s a => s.step firstBySecond a) new linkedUp).map (fun s =>
      (s.joined.map fun j => j.records.map Prod.snd, s.late,
        s.side.table.settled s.side.pending)) =
      some (some [(20, 10), (10, 20)], [20], [(10, 1, 2), (20, 2, 1)]) := rfl
  obtain ⟨s, hrun, hs⟩ := Option.map_eq_some_iff.mp hsummary
  simp only [Prod.mk.injEq] at hs
  obtain ⟨hjoined, hlate, hsettled⟩ := hs
  obtain ⟨joined, hj, hrecords⟩ := Option.map_eq_some_iff.mp hjoined
  refine ⟨s, joined, hrun, hj, hrecords,
    (((self_join_exact linkedUp s hrun).2 joined hj).mpr ?_).1⟩
  intro record v hv hin
  rw [hlate, List.mem_singleton] at hin
  rw [hsettled, hin] at hv
  have hval : v = (2, 1) := by simpa using hv
  rw [hval]
  decide

/-- `join<key_first, key_first>(t, t)`. -/
def byFirst : SelfKeyers (Nat × Nat) Nat where
  leftBy := Prod.fst
  rightBy := Prod.fst
  shared := true
  one_type := fun _ => rfl

/-- **A record committed after the set-up is paired with itself twice**, where one that was there
    before is paired once. -/
theorem self_join_doubles :
    let m := Maker.ascending fun _ => (0, 0)
    (Lib.run (fun s a => s.step byFirst a) new
      [.on (.create 10 (3, 1)) m, .on (.commit 10) m, .join m, .on (.create 20 (3, 2)) m,
        .on (.commit 20) m] : Option (SelfJoined (Nat × Nat) Nat fun _ : Unit => Nat)).map
      (fun s => (s.joined.map fun j => j.records.map Prod.snd,
        s.side.table.settled s.side.pending)) =
      some (some [(10, 10), (20, 10), (20, 20), (10, 20), (20, 20)], [(10, 3, 1), (20, 3, 2)]) ∧
    ¬ [(10, 10), (20, 10), (20, 20), (10, 20), (20, 20)].Nodup := by
  decide

end SelfJoined

end MicroProfiler.Sdb
