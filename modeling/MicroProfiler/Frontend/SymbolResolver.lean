/-
  `frontend/src/symbol_resolver.cpp`: the symbol an address belongs to.

  1. **The code** — `findSymbolByVa` finds the mapping below the address and in the symbols of its
     module the one below the offset, both with `find_range`.  The symbols come when the module's
     metadata does: at once if it is there, else when it is received.

  2. **The cache** (`Cached`) — what is cached is the metadata there is, in every run.

  3. **Exactness** (`find_symbol_by_va_exact`) — the offset is cut to 32 bits, and a symbol of size
     zero hides the one around it: the answer is right EXACTLY WHEN neither matters.
-/
import MicroProfiler.Lib.OrderedIndex
import MicroProfiler.Lib.Runs
import Mathlib.Logic.Function.Basic

namespace MicroProfiler

open Lib (OrderedMap OrderedMultimap findRange)

/-- `struct symbol_info`: where in its module a function is. -/
structure SymbolInfo where
  name : String
  rva : Nat
  size : Nat
  /-- both are `unsigned int` -/
  rva_lt : rva < 0x100000000
  size_lt : size < 0x100000000
deriving DecidableEq, Repr

/-- A record of `tables::module_mappings`. -/
structure ModuleMapping where
  persistentId : Nat
  base : Nat
deriving DecidableEq, Repr

/-- `find_range(sdb::ordered_index_(mappings, keyer::base()), address)`, of the table in the order of
    its records. -/
def findMapping (mappings : List ModuleMapping) (address : Nat) : Option ModuleMapping :=
  findRange ModuleMapping.base address (OrderedMultimap.ofList ModuleMapping.base mappings).items

/-- `class symbol_resolver`, with the tables it reads. -/
structure SymbolResolver where
  /-- the table of mappings -/
  mappings : List ModuleMapping
  /-- the table of modules: the symbols of those whose metadata is there -/
  modules : Nat → Option (List SymbolInfo)
  /-- `_symbols_ordered` -/
  symbolsOrdered : Nat → Option (OrderedMap SymbolInfo.rva)
  /-- `_requests`, which are not answered yet -/
  requests : List Nat

namespace SymbolResolver

/-- Nothing is mapped, and nothing requested. -/
def new : SymbolResolver := ⟨[], fun _ => none, fun _ => none, []⟩

/-- The callback of `request_presence`. -/
def cacheSymbols (s : SymbolResolver) (persistentId : Nat) (symbols : List SymbolInfo) :
    SymbolResolver :=
  { s with
    symbolsOrdered := Function.update s.symbolsOrdered persistentId (some
      (symbols.foldl OrderedMap.insert ((s.symbolsOrdered persistentId).getD (.empty _))))
    requests := s.requests.filter fun p => p ≠ persistentId }

/-- The symbols are requested, unless they are there or were requested before; the callback runs at
    once if the metadata is there. -/
def requestSymbols (s : SymbolResolver) (persistentId : Nat) : SymbolResolver :=
  match s.symbolsOrdered persistentId with
  | some _ => s
  | none =>
      if persistentId ∈ s.requests then s
      else
        let s := { s with requests := s.requests ++ [persistentId] }
        match s.modules persistentId with
        | some symbols => s.cacheSymbols persistentId symbols
        | none => s

/-- `find_symbol_by_va` -/
def findSymbolByVa (s : SymbolResolver) (address : Nat) : SymbolResolver × Option SymbolInfo :=
  match findMapping s.mappings address with
  | none => (s, none)
  | some mapping =>
      let s := s.requestSymbols mapping.persistentId
      match s.symbolsOrdered mapping.persistentId with
      | none => (s, none)
      | some cachedSymbols =>
          -- `static_cast<unsigned int>`
          let rva := (address - mapping.base) % 0x100000000
          match findRange SymbolInfo.rva rva cachedSymbols.items with
          | none => (s, none)
          | some candidate => (s, if rva - candidate.rva < candidate.size then some candidate else none)

/-- What happens to a resolver. -/
inductive ResolverAction
  /-- A mapping comes. -/
  | mapped (mapping : ModuleMapping)
  /-- The metadata of a module comes, and whoever requested it is called. -/
  | received (persistentId : Nat) (symbols : List SymbolInfo)
  /-- An address is looked up. -/
  | lookup (address : Nat)

/-- A step; `none` where it cannot happen. -/
def step (s : SymbolResolver) : ResolverAction → Option SymbolResolver
  | .mapped mapping => some { s with mappings := s.mappings ++ [mapping] }
  | .received persistentId symbols =>
      match s.modules persistentId with
      -- the table has one record for a module
      | some _ => none
      | none =>
          let s := { s with modules := Function.update s.modules persistentId (some symbols) }
          some (if persistentId ∈ s.requests then s.cacheSymbols persistentId symbols else s)
  | .lookup address => some (s.findSymbolByVa address).1

/-! ## The cache -/

/-- What is cached is the metadata; what is requested is not there yet. -/
structure Cached (s : SymbolResolver) : Prop where
  cached : ∀ p c, s.symbolsOrdered p = some c →
    ∃ symbols, s.modules p = some symbols ∧ c = .ofList SymbolInfo.rva symbols
  /-- its callback would have run -/
  pending : ∀ p ∈ s.requests, s.modules p = none

/-- Nothing is cached or requested. -/
theorem new_cached : Cached new where
  cached _ _ h := by cases h
  pending _ h := absurd h List.not_mem_nil

/-- The symbols of a module are cached once. -/
theorem Cached.cacheSymbols {s : SymbolResolver} {p : Nat} {symbols : List SymbolInfo}
    (hcached : ∀ q c, q ≠ p → s.symbolsOrdered q = some c →
      ∃ symbols, s.modules q = some symbols ∧ c = .ofList SymbolInfo.rva symbols)
    (hpending : ∀ q ∈ s.requests, q ≠ p → s.modules q = none)
    (hnew : s.symbolsOrdered p = none) (hmodule : s.modules p = some symbols) :
    Cached (s.cacheSymbols p symbols) := by
  refine ⟨fun q c hc => ?_, fun q hq => ?_⟩
  · change Function.update s.symbolsOrdered p _ q = some c at hc
    -- the module itself: its map was empty
    by_cases heq : q = p
    · subst heq
      rw [Function.update_self, hnew] at hc
      exact ⟨symbols, hmodule, (Option.some.inj hc).symm⟩
    · rw [Function.update_of_ne heq] at hc
      exact hcached q c heq hc
  · obtain ⟨hq, hne⟩ := List.mem_filter.mp hq
    exact hpending q hq (of_decide_eq_true hne)

/-- **A lookup** caches what there is, and requests what there is not. -/
theorem Cached.requestSymbols {s : SymbolResolver} (h : Cached s) (p : Nat) :
    Cached (s.requestSymbols p) ∧ (s.requestSymbols p).modules = s.modules ∧
      ∀ symbols, s.modules p = some symbols →
        (s.requestSymbols p).symbolsOrdered p = some (.ofList SymbolInfo.rva symbols) := by
  unfold SymbolResolver.requestSymbols
  cases hordered : s.symbolsOrdered p with
  -- the symbols are cached
  | some c =>
    refine ⟨h, rfl, fun symbols hsymbols => ?_⟩
    obtain ⟨symbols', hsymbols', rfl⟩ := h.cached p c hordered
    cases hsymbols.symm.trans hsymbols'
    exact hordered
  | none =>
    dsimp only
    split
    · -- they were requested before
      next hrequested =>
      refine ⟨h, rfl, fun symbols hsymbols => ?_⟩
      rw [h.pending p hrequested] at hsymbols
      cases hsymbols
    · -- they are requested now; the callback runs at once if it can
      next hnew =>
      have hpending : ∀ q ∈ s.requests ++ [p], q ≠ p → s.modules q = none := by
        intro q hq hne
        rcases List.mem_append.mp hq with hq | hq
        · exact h.pending q hq
        · exact absurd (List.mem_singleton.mp hq) hne
      cases hmodule : s.modules p with
      | some symbols =>
        refine ⟨Cached.cacheSymbols (fun q c _ => h.cached q c) hpending hordered hmodule, rfl, ?_⟩
        rintro _ ⟨⟩
        show Function.update s.symbolsOrdered p _ p = _
        rw [Function.update_self, hordered]
        rfl
      | none =>
        refine ⟨⟨h.cached, fun q hq => ?_⟩, rfl, fun symbols hsymbols => by cases hsymbols⟩
        by_cases heq : q = p
        · rw [heq]
          exact hmodule
        · exact hpending q hq heq

/-- **Every step** keeps the cache. -/
theorem Cached.step {s s' : SymbolResolver} (h : Cached s) {a : ResolverAction}
    (hstep : s.step a = some s') : Cached s' := by
  cases a with
  | mapped mapping =>
    obtain rfl := Option.some.inj hstep
    exact ⟨h.cached, h.pending⟩
  | received p symbols =>
    simp only [SymbolResolver.step] at hstep
    cases hmodule : s.modules p with
    | some symbols' =>
      rw [hmodule] at hstep
      cases hstep
    | none =>
      rw [hmodule] at hstep
      obtain rfl := Option.some.inj hstep
      -- the module was not there, so nothing of it is cached
      have hnew : s.symbolsOrdered p = none := by
        cases hordered : s.symbolsOrdered p with
        | none => rfl
        | some c =>
          obtain ⟨symbols', hsymbols', _⟩ := h.cached p c hordered
          rw [hmodule] at hsymbols'
          cases hsymbols'
      -- what is cached is of other modules
      have hcached : ∀ q c, s.symbolsOrdered q = some c → ∃ symbols',
          Function.update s.modules p (some symbols) q = some symbols' ∧
            c = .ofList SymbolInfo.rva symbols' := by
        intro q c hc
        rw [Function.update_of_ne (by rintro rfl; rw [hnew] at hc; cases hc)]
        exact h.cached q c hc
      have hpending : ∀ q ∈ s.requests, q ≠ p →
          Function.update s.modules p (some symbols) q = none := by
        intro q hq hne
        rw [Function.update_of_ne hne]
        exact h.pending q hq
      split
      · exact Cached.cacheSymbols (fun q c _ => hcached q c) hpending hnew (Function.update_self ..)
      · next hrequested =>
        refine ⟨hcached, fun q hq => hpending q hq ?_⟩
        rintro rfl
        exact hrequested hq
  | lookup address =>
    obtain rfl := Option.some.inj hstep
    unfold findSymbolByVa
    split
    · exact h
    · next mapping _ =>
      have hrequested := (h.requestSymbols mapping.persistentId).1
      dsimp only
      split
      · exact hrequested
      · split
        · exact hrequested
        · exact hrequested

/-! ## Exactness -/

/-- The offset is one of the symbol's. -/
def Covers (symbol : SymbolInfo) (offset : Nat) : Prop :=
  symbol.rva ≤ offset ∧ offset < symbol.rva + symbol.size

/-- No offset belongs to two symbols. -/
def DisjointRanges (symbols : List SymbolInfo) : Prop :=
  symbols.Pairwise fun a b => ∀ offset, ¬ (Covers a offset ∧ Covers b offset)

/-- No symbol of size zero stands between the symbol and the offset, or after it in the list with the
    same address. -/
def Visible (symbols : List SymbolInfo) (symbol : SymbolInfo) (offset : Nat) : Prop :=
  ∃ l₁ l₂, symbols = l₁ ++ symbol :: l₂ ∧
    (∀ x ∈ l₁, x.size = 0 → x.rva ≤ offset → x.rva ≤ symbol.rva) ∧
    ∀ x ∈ l₂, x.size = 0 → x.rva ≤ offset → x.rva < symbol.rva

/-- The mapping with the greatest base not above the address, the last of these. -/
def Topmost (mappings : List ModuleMapping) (address : Nat) (m : ModuleMapping) : Prop :=
  ∃ l₁ l₂, mappings = l₁ ++ m :: l₂ ∧ m.base ≤ address ∧
    (∀ x ∈ l₁, x.base ≤ address → x.base ≤ m.base) ∧ ∀ x ∈ l₂, x.base ≤ address → x.base < m.base

/-- An offset of 32 bits whose symbol, if there is one, is visible; or a greater one that is no
    symbol's, and whose lower 32 bits are no visible symbol's. -/
def Resolvable (symbols : List SymbolInfo) (offset : Nat) : Prop :=
  if offset < 0x100000000 then ∀ symbol ∈ symbols, Covers symbol offset → Visible symbols symbol offset
  else (∀ symbol ∈ symbols, ¬ Covers symbol offset) ∧
    ∀ symbol ∈ symbols, Covers symbol (offset % 0x100000000) →
      ¬ Visible symbols symbol (offset % 0x100000000)

/-- The symbol found at an offset of 32 bits. -/
def resolve (symbols : List SymbolInfo) (rva : Nat) : Option SymbolInfo :=
  (Lib.floor SymbolInfo.rva rva symbols).filter fun candidate => rva - candidate.rva < candidate.size

/-- The mapping that is found is the topmost one, -/
theorem findMapping_eq_some_iff {mappings : List ModuleMapping} {address : Nat} {m : ModuleMapping} :
    findMapping mappings address = some m ↔ Topmost mappings address m := by
  rw [findMapping, OrderedMultimap.findRange_ofList, Lib.floor_eq_some_iff]
  rfl

/-- and none is found below all bases. -/
theorem findMapping_eq_none_iff {mappings : List ModuleMapping} {address : Nat} :
    findMapping mappings address = none ↔ ∀ m ∈ mappings, address < m.base := by
  rw [findMapping, OrderedMultimap.findRange_ofList, Lib.floor_eq_none_iff]

/-- Where there are symbols, they are looked through. -/
theorem findSymbolByVa_eq {s : SymbolResolver} (h : Cached s) {address : Nat} {m : ModuleMapping}
    {symbols : List SymbolInfo} (hm : Topmost s.mappings address m)
    (hsymbols : s.modules m.persistentId = some symbols) :
    (s.findSymbolByVa address).2 = resolve symbols ((address - m.base) % 0x100000000) := by
  have hordered := (h.requestSymbols m.persistentId).2.2 symbols hsymbols
  rw [findSymbolByVa, findMapping_eq_some_iff.mpr hm]
  dsimp only
  rw [hordered]
  dsimp only
  rw [OrderedMap.findRange_ofList, resolve]
  cases Lib.floor SymbolInfo.rva ((address - m.base) % 0x100000000) symbols with
  | none => rfl
  | some candidate =>
    rw [Option.filter_some]
    simp only [decide_eq_true_eq]

/-- **What is found** is the visible symbol at the offset. -/
theorem resolve_eq_some_iff {symbols : List SymbolInfo} (h : DisjointRanges symbols) {rva : Nat}
    {symbol : SymbolInfo} :
    resolve symbols rva = some symbol ↔ Covers symbol rva ∧ Visible symbols symbol rva := by
  rw [resolve, Option.filter_eq_some_iff, Lib.floor_eq_some_iff, decide_eq_true_iff]
  constructor
  · rintro ⟨⟨l₁, l₂, heq, hle, hbefore, hafter⟩, hsize⟩
    exact ⟨⟨hle, by omega⟩, l₁, l₂, heq, fun x hx _ => hbefore x hx, fun x hx _ => hafter x hx⟩
  · rintro ⟨⟨hle, hlt⟩, l₁, l₂, rfl, hbefore, hafter⟩
    refine ⟨⟨l₁, l₂, rfl, hle, fun x hx hxle => ?_, fun x hx hxle => ?_⟩, by omega⟩
    · -- a symbol that is not empty begins below: it would share its first byte otherwise
      by_contra hgt
      have hempty : x.size ≠ 0 := fun hzero => hgt (hbefore x hx hzero hxle)
      have hapart := (List.pairwise_append.mp h).2.2 x hx symbol List.mem_cons_self x.rva
      exact hapart ⟨⟨Nat.le_refl _, by omega⟩, ⟨by omega, by omega⟩⟩
    · by_contra hge
      have hempty : x.size ≠ 0 := fun hzero => hge (hafter x hx hzero hxle)
      have hapart := (List.pairwise_cons.mp (List.pairwise_append.mp h).2.1).1 x hx x.rva
      exact hapart ⟨⟨by omega, by omega⟩, ⟨Nat.le_refl _, by omega⟩⟩

/-- What is visible is there. -/
theorem Visible.mem {symbols : List SymbolInfo} {symbol : SymbolInfo} {offset : Nat}
    (h : Visible symbols symbol offset) : symbol ∈ symbols := by
  obtain ⟨l₁, l₂, rfl, _⟩ := h
  exact List.mem_append_right _ List.mem_cons_self

/-- A symbol has less than 2^32 bytes: it has no offset together with the lower bits of that. -/
theorem not_covers_both {symbol : SymbolInfo} {offset : Nat} (hhigh : ¬ offset < 0x100000000)
    (hlow : Covers symbol (offset % 0x100000000)) : ¬ Covers symbol offset := by
  intro hboth
  have hsize := symbol.size_lt
  have hlow := hlow.1
  have hhigh := hboth.2
  omega

/-- **The symbols of an offset** are found exactly when it is `Resolvable`. -/
theorem resolve_exact_iff {symbols : List SymbolInfo} (h : DisjointRanges symbols) (offset : Nat) :
    (∀ symbol, resolve symbols (offset % 0x100000000) = some symbol ↔
      symbol ∈ symbols ∧ Covers symbol offset) ↔ Resolvable symbols offset := by
  unfold Resolvable
  split
  · -- an offset of 32 bits is not cut
    next hlow =>
    rw [Nat.mod_eq_of_lt hlow]
    constructor
    · intro hexact symbol hmem hcovers
      exact ((resolve_eq_some_iff h).mp ((hexact symbol).mpr ⟨hmem, hcovers⟩)).2
    · intro hvisible symbol
      rw [resolve_eq_some_iff h]
      exact ⟨fun hfound => ⟨hfound.2.mem, hfound.1⟩,
        fun hcovers => ⟨hcovers.2, hvisible symbol hcovers.1 hcovers.2⟩⟩
  · -- a greater one is: nothing may be found, as nothing has it
    next hhigh =>
    constructor
    · intro hexact
      refine ⟨fun symbol hmem hcovers => ?_, fun symbol hmem hcovers hvisible => ?_⟩
      · have hfound := (resolve_eq_some_iff h).mp ((hexact symbol).mpr ⟨hmem, hcovers⟩)
        exact not_covers_both hhigh hfound.1 hcovers
      · have hfound := (resolve_eq_some_iff h).mpr ⟨hcovers, hvisible⟩
        exact not_covers_both hhigh hcovers ((hexact symbol).mp hfound).2
    · rintro ⟨hnone, hhidden⟩ symbol
      refine iff_of_false (fun hfound => ?_) fun hcovers => hnone symbol hcovers.1 hcovers.2
      obtain ⟨hcovers, hvisible⟩ := (resolve_eq_some_iff h).mp hfound
      exact hhidden symbol hvisible.mem hcovers hvisible

/-- A symbol of three bytes. -/
def foo : SymbolInfo := ⟨"foo", 0x10, 3, by decide, by decide⟩

/-- A symbol of sixteen bytes, -/
def bar : SymbolInfo := ⟨"bar", 0x20, 16, by decide, by decide⟩

/-- and a label in it. -/
def label : SymbolInfo := ⟨"label", 0x28, 0, by decide, by decide⟩

/-- They share no byte: the label has none. -/
theorem foo_bar_label_disjoint : DisjointRanges [foo, bar, label] := by
  have hapart : ∀ a b : SymbolInfo, a.rva + a.size ≤ b.rva ∨ b.size = 0 →
      ∀ offset, ¬ (Covers a offset ∧ Covers b offset) := by
    intro a b h offset
    unfold Covers
    omega
  refine .cons (fun b hb => ?_) (.cons (fun b hb => ?_) (List.pairwise_singleton _ _))
  · rcases List.mem_cons.mp hb with rfl | hb
    · exact hapart _ _ (Or.inl (by decide))
    · rw [List.mem_singleton.mp hb]
      exact hapart _ _ (Or.inr rfl)
  · rw [List.mem_singleton.mp hb]
    exact hapart _ _ (Or.inr rfl)

/-- An address 4 GiB above a symbol belongs to it, and one behind a label belongs to nothing. -/
theorem find_symbol_by_va_misses :
    DisjointRanges [foo, bar, label] ∧
    ∃ s, Lib.run SymbolResolver.step SymbolResolver.new
        [.mapped ⟨1, 0x1000⟩, .received 1 [foo, bar, label]] = some s ∧
      (s.findSymbolByVa 0x100001010).2 = some foo ∧ ¬ 0x100001010 < 0x1000 + foo.rva + foo.size ∧
      (s.findSymbolByVa 0x1029).2 = none ∧
        0x1000 + bar.rva ≤ 0x1029 ∧ 0x1029 < 0x1000 + bar.rva + bar.size := by
  refine ⟨foo_bar_label_disjoint, _, rfl, ?_⟩
  exact ⟨by decide +kernel, by decide, by decide +kernel, by decide, by decide⟩

/-- **Symbol resolution is exact**, in every run, exactly when the offset is `Resolvable`: it has 32
    bits and no symbol of size zero hides its symbol. -/
theorem find_symbol_by_va_exact (actions : List ResolverAction) (s : SymbolResolver)
    (hrun : Lib.run SymbolResolver.step SymbolResolver.new actions = some s) (address : Nat) :
    ((∀ m ∈ s.mappings, address < m.base) → (s.findSymbolByVa address).2 = none) ∧
    ∀ m symbols, Topmost s.mappings address m → s.modules m.persistentId = some symbols →
      DisjointRanges symbols →
      ((∀ symbol, (s.findSymbolByVa address).2 = some symbol ↔ symbol ∈ symbols ∧
        m.base + symbol.rva ≤ address ∧ address < m.base + symbol.rva + symbol.size) ↔
      Resolvable symbols (address - m.base)) := by
  have h : Cached s := Lib.run_invariant (fun _ _ _ h hstep => h.step hstep) actions new s new_cached
    hrun
  constructor
  · intro hnone
    rw [findSymbolByVa, findMapping_eq_none_iff.mpr hnone]
  · intro m symbols hm hsymbols hdisjoint
    have hbase : m.base ≤ address := by
      obtain ⟨_, _, _, hbase, _⟩ := hm
      exact hbase
    -- offsets and addresses
    have hcovers : ∀ symbol, Covers symbol (address - m.base) ↔
        m.base + symbol.rva ≤ address ∧ address < m.base + symbol.rva + symbol.size := by
      intro symbol
      unfold Covers
      omega
    rw [findSymbolByVa_eq h hm hsymbols, ← resolve_exact_iff hdisjoint]
    exact forall_congr' fun symbol => by rw [hcovers]

/-- The last byte of a symbol, after a lookup that came too early. -/
theorem find_symbol_by_va_exact_foo :
    ∃ s, Lib.run SymbolResolver.step SymbolResolver.new
        [.mapped ⟨1, 0x1000⟩, .lookup 0x1012, .received 1 [foo, bar, label]] = some s ∧
      (s.findSymbolByVa 0x1012).2 = some foo := by
  refine ⟨_, rfl, ?_⟩
  refine (((find_symbol_by_va_exact [.mapped ⟨1, 0x1000⟩, .lookup 0x1012,
    .received 1 [foo, bar, label]] _ rfl 0x1012).2 ⟨1, 0x1000⟩ [foo, bar, label] ?_ rfl
    foo_bar_label_disjoint).mpr ?_ foo).mpr ⟨List.mem_cons_self, by decide, by decide⟩
  · refine ⟨[], [], rfl, by decide, ?_, ?_⟩
    · exact fun x hx => absurd hx List.not_mem_nil
    · exact fun x hx => absurd hx List.not_mem_nil
  · intro symbol hmem hcovers
    rcases List.mem_cons.mp hmem with rfl | hmem
    · refine ⟨[], [bar, label], rfl, fun x hx => absurd hx List.not_mem_nil, ?_⟩
      decide
    · rcases List.mem_cons.mp hmem with rfl | hmem
      · exact absurd hcovers.1 (by decide)
      · rw [List.mem_singleton.mp hmem] at hcovers
        exact absurd hcovers.1 (by decide)

end SymbolResolver

end MicroProfiler
