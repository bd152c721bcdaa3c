import Tabulate.Proofs.Nests
import Tabulate.Proofs.Skipping

/-! Keys that are numbered. Below one key the records of a table are numbered from zero on without a
gap, over all documents that are kept, and the numbered keys of a table are all different: the key of
the record around can be told from the number, whatever stands in it. -/
namespace Tabulate

open Effects
open Nest (begunIn doneIn)

theorem underscore_not_mem_toString (n : Nat) : '_' ∉ (toString n).toList := by
  intro h
  have hdigit : '_'.isDigit = true :=
    Nat.isDigit_of_mem_toDigits (by omega) (by omega) (Nat.toList_repr (n := n) ▸ h)
  exact absurd hdigit (by decide)

theorem toString_toList_inj {n m : Nat} (h : (toString n).toList = (toString m).toList) : n = m := by
  have hdigits : Nat.toDigits 10 n = Nat.toDigits 10 m :=
    Nat.toList_repr.symm.trans (h.trans Nat.toList_repr)
  have hvalue := congrArg (Nat.ofDigitChars 10 · 0) hdigits
  simpa only [Nat.ofDigitChars_toDigits (by omega : 1 < 10) (by omega)] using hvalue

theorem syntheticKey_inj {p q : String} {n m : Nat} :
    syntheticKey p n = syntheticKey q m ↔ p = q ∧ n = m := by
  refine ⟨fun h => ?_, fun ⟨hp, hn⟩ => by rw [hp, hn]⟩
  have hlist : p.toList ++ '_' :: (toString n).toList = q.toList ++ '_' :: (toString m).toList := by
    simpa [syntheticKey] using congrArg String.toList h
  obtain ⟨hp, hn⟩ :=
    Text.append_cons_inj hlist (underscore_not_mem_toString n) (underscore_not_mem_toString m)
  exact ⟨String.toList_inj.1 hp, toString_toList_inj hn⟩

theorem KeyCounters.count_next (k : KeyCounters) (e p e' p' : String) :
    (k.next e p).2.count e' p' = if e' = e ∧ p' = p then k.count e p + 1 else k.count e' p' := by
  simp only [next, count, Dictionary.get?_insert]
  by_cases he : e' = e
  · by_cases hp : p' = p
    · simp [he, hp]
    · subst he
      cases k.counts.get? e' <;> simp [hp]
  · simp [he]

namespace Making

def isNumbered (s : Source) (m : Making) : Bool := (s.toldKey? m.entity m.place).isNone

def keysBelow (ms : List Making) (table parentKey : String) : List String :=
  (ms.filter fun m => m.entity.table = table && m.parentKey = parentKey).map key

theorem keysBelow_append (ms ns : List Making) (table parentKey : String) :
    keysBelow (ms ++ ns) table parentKey = keysBelow ms table parentKey ++ keysBelow ns table parentKey := by
  rw [keysBelow, List.filter_append, List.map_append]
  rfl

theorem keysBelow_cons (m : Making) (ms : List Making) (table parentKey : String) :
    keysBelow (m :: ms) table parentKey =
      (if m.entity.table = table ∧ m.parentKey = parentKey then [m.key] else []) ++
        keysBelow ms table parentKey := by
  rw [keysBelow, List.filter_cons]
  by_cases h : m.entity.table = table ∧ m.parentKey = parentKey
  · simp [h, keysBelow]
  · simp [h, keysBelow]

end Making

open Making (keysBelow)

def Nest.numberedIn (s : Source) (ns : List Nest) : List Making := (begunIn ns).filter (·.isNumbered s)

open Nest (numberedIn)

def KeyCounters.Spend (k : KeyCounters) (ms : List Making) (k' : KeyCounters) : Prop :=
  ∀ table parentKey, ∃ n, k'.count table parentKey = k.count table parentKey + n ∧
    keysBelow ms table parentKey =
      (List.range' (k.count table parentKey) n).map (syntheticKey parentKey)

namespace KeyCounters.Spend
variable {a b c : KeyCounters} {ms ns : List Making} {s : Source}

theorem nil (k : KeyCounters) : k.Spend [] k := fun _ _ => ⟨0, rfl, rfl⟩

theorem append (h : a.Spend ms b) (h' : b.Spend ns c) : a.Spend (ms ++ ns) c := by
  intro table parentKey
  obtain ⟨m, hm, hms⟩ := h table parentKey
  obtain ⟨n, hn, hns⟩ := h' table parentKey
  refine ⟨m + n, by omega, ?_⟩
  rw [Making.keysBelow_append, hms, hns, hm, ← List.map_append, List.range'_append_1]

/-- A numbered record takes the next number before those inside it take theirs. -/
theorem cons {m : Making} (hm : m.key = syntheticKey m.parentKey (a.count m.entity.table m.parentKey))
    (h : (a.next m.entity.table m.parentKey).2.Spend ms b) : a.Spend (m :: ms) b := by
  intro table parentKey
  obtain ⟨n, hn, hms⟩ := h table parentKey
  rw [count_next] at hn hms
  rw [Making.keysBelow_cons, hms]
  by_cases hk : table = m.entity.table ∧ parentKey = m.parentKey
  · obtain ⟨rfl, rfl⟩ := hk
    rw [if_pos ⟨rfl, rfl⟩] at hn ⊢
    rw [if_pos ⟨rfl, rfl⟩, hm]
    exact ⟨n + 1, by omega, rfl⟩
  · rw [if_neg hk] at hn ⊢
    rw [if_neg fun h => hk ⟨h.1.symm, h.2.symm⟩]
    exact ⟨n, hn, rfl⟩

end KeyCounters.Spend

/-- What is numbered in a walk takes the next numbers. -/
theorem spend_watch {s : Source} {schema : Schema} {ns : List Nest} {h h' : Harvest}
    (hw : Tabulator.watch s schema h = .ok ns h') : h.counters.Spend (numberedIn s ns) h'.counters := by
  have W : NestStable s schema.declarations fun a ns b => a.counters.Spend (numberedIn s ns) b.counters :=
    { refl := fun h => .nil _
      trans := by
        intro a b c ns more hns hmore
        rw [numberedIn, Nest.begunIn_append, List.filter_append]
        exact hns.append hmore
      warned := fun h w => .nil _
      recorded := by
        intro m inner h h₁ h₂ _ hkey _ hinner
        rw [numberedIn, Nest.begunIn_record, List.filter_cons]
        obtain ⟨htold, rfl⟩ | ⟨htold, parentKey, rfl, hm, rfl⟩ := recordKey_eq_ok hkey
        · simp only [Making.isNumbered, htold]
          exact hinner
        · simp only [Making.isNumbered, htold]
          exact .cons hm hinner }
  exact W.watchSchema hw

structure Gain where
  source : Source
  nests : List Nest

namespace Gain

def made (g : Gain) : List Making := doneIn g.nests

def numbered (g : Gain) : List Making := numberedIn g.source g.nests

theorem mem_numbered {g : Gain} {m : Making} :
    m ∈ g.numbered ↔ m ∈ g.made ∧ m.isNumbered g.source = true := by
  rw [numbered, numberedIn, List.mem_filter, made, (Nest.doneIn_perm_begunIn g.nests).mem_iff]

end Gain

inductive Call where
  | feed (fs : FileSystem) (f : Feed)
  | drain

namespace Tabulator

def gain? (t : Tabulator) (fs : FileSystem) (f : Feed) : Option Gain :=
  match t.parse fs f.text with
  | .error _ => none
  | .ok d =>
    let source : Source := ⟨d, t.namespacesFor d, f.filename⟩
    match watch source t.schema { counters := t.counters } with
    | .ok nests _ => some ⟨source, nests⟩
    | .error .. => none

def call (t : Tabulator) : Call → Tabulator
  | .feed fs f => (t.feed fs f).next
  | .drain => t.drain.2

def gains (t : Tabulator) : Call → List Gain
  | .feed fs f => (t.gain? fs f).toList
  | .drain => []

def drained (t : Tabulator) : Call → Tables
  | .feed .. => .empty
  | .drain => t.drain.1

def callAll (t : Tabulator) : List Call → Tabulator
  | [] => t
  | c :: cs => (t.call c).callAll cs

def allGains (t : Tabulator) : List Call → List Gain
  | [] => []
  | c :: cs => t.gains c ++ (t.call c).allGains cs

def allDrained (t : Tabulator) : List Call → Tables
  | [] => .empty
  | c :: cs => (t.drained c).merge ((t.call c).allDrained cs)

/-- A document that fails gives nothing and takes no numbers. -/
theorem feed_gain (t : Tabulator) (fs : FileSystem) (f : Feed) :
    (t.accepts fs f = false ∧ t.gain? fs f = none ∧ (t.feed fs f).next.counters = t.counters ∧
      (t.feed fs f).next.tables = t.tables) ∨
    (t.accepts fs f = true ∧ ∃ g h, t.gain? fs f = some g ∧
      watch g.source t.schema { counters := t.counters } = .ok g.nests h ∧
      (t.feed fs f).next.counters = h.counters ∧
      (t.feed fs f).next.tables = t.tables.merge h.tables) := by
  rw [next_feed, accepts, addDocument, gain?]
  cases t.parse fs f.text with
  | error e => exact .inl ⟨rfl, rfl, rfl, rfl⟩
  | ok d =>
    dsimp only
    generalize hs : (⟨d, t.namespacesFor d, f.filename⟩ : Source) = source
    cases hw : walk source t.schema { counters := t.counters } with
    | ok u h =>
      obtain ⟨ns, hns⟩ := watch_eq_ok.2 hw
      rw [hns]
      exact .inr ⟨rfl, ⟨source, ns⟩, h, rfl, hns, rfl, rfl⟩
    | error e h =>
      cases hns : watch source t.schema { counters := t.counters } with
      | ok ns h' => cases hw.symm.trans (watch_eq_ok.1 ⟨ns, hns⟩)
      | error e' h' => exact .inl ⟨rfl, rfl, rfl, rfl⟩

/-- Every call takes the next numbers and keeps all records, in the tabulator or taken out of it. -/
theorem call_spends (t : Tabulator) (c : Call) :
    t.counters.Spend ((t.gains c).flatMap Gain.numbered) (t.call c).counters ∧
      (t.drained c).merge (t.call c).tables =
        t.tables.merge (Making.tables ((t.gains c).flatMap Gain.made)) := by
  cases c with
  | drain => exact ⟨.nil _, rfl⟩
  | feed fs f =>
    rw [gains, drained, Tables.empty_merge]
    obtain ⟨-, hg, hcounters, htables⟩ | ⟨-, g, h, hg, hw, hcounters, htables⟩ := t.feed_gain fs f
    · rw [hg, call, hcounters, htables]
      exact ⟨.nil _, rfl⟩
    · have hmade := (watch_makings hw).1
      rw [Tables.empty_merge] at hmade
      rw [hg, call, hcounters, htables, Option.toList_some, List.flatMap_singleton, List.flatMap_singleton,
        hmade]
      exact ⟨spend_watch hw, rfl⟩

theorem callAll_spends (t : Tabulator) (cs : List Call) :
    t.counters.Spend ((t.allGains cs).flatMap Gain.numbered) (t.callAll cs).counters ∧
      (t.allDrained cs).merge (t.callAll cs).tables =
        t.tables.merge (Making.tables ((t.allGains cs).flatMap Gain.made)) := by
  induction cs generalizing t with
  | nil => exact ⟨.nil _, by simp [allDrained, callAll, allGains, Making.tables]⟩
  | cons c cs ih =>
    obtain ⟨hspend, htables⟩ := t.call_spends c
    obtain ⟨hrest, hkept⟩ := ih (t.call c)
    rw [allGains, allDrained, callAll, List.flatMap_append, List.flatMap_append]
    refine ⟨hspend.append hrest, ?_⟩
    rw [Tables.merge_assoc, hkept, ← Tables.merge_assoc, htables, Tables.merge_assoc, Making.tables_append]

end Tabulator

section Distinct
variable {k : KeyCounters} {ms : List Making}

theorem KeyCounters.Spend.keysBelow_eq (h : KeyCounters.empty.Spend ms k) (table parentKey : String) :
    ∃ n, keysBelow ms table parentKey = (List.range n).map (syntheticKey parentKey) := by
  obtain ⟨n, -, hkeys⟩ := h table parentKey
  exact ⟨n, by rw [hkeys, List.range_eq_range']; rfl⟩

theorem KeyCounters.Spend.key_eq (h : KeyCounters.empty.Spend ms k) {m : Making} (hm : m ∈ ms) :
    ∃ n, m.key = syntheticKey m.parentKey n := by
  obtain ⟨n, hkeys⟩ := h.keysBelow_eq m.entity.table m.parentKey
  have hkey : m.key ∈ keysBelow ms m.entity.table m.parentKey :=
    List.mem_map.2 ⟨m, List.mem_filter.2 ⟨hm, by simp⟩, rfl⟩
  rw [hkeys] at hkey
  obtain ⟨i, -, hi⟩ := List.mem_map.1 hkey
  exact ⟨i, hi.symm⟩

/-- Keys of one table that are numbered below different keys differ, since the number can be told from
what is before it. -/
theorem KeyCounters.Spend.nodup (h : KeyCounters.empty.Spend ms k) (table : String) :
    ((ms.filter fun m => m.entity.table = table).map Making.key).Nodup := by
  rw [List.Nodup, List.pairwise_map, List.pairwise_iff_forall_sublist]
  intro a b hab hkey
  have hmem (m : Making) (hm : m ∈ [a, b]) : m ∈ ms ∧ m.entity.table = table := by
    simpa using hab.subset hm
  obtain ⟨ha, hta⟩ := hmem a (by simp)
  obtain ⟨hb, htb⟩ := hmem b (by simp)
  obtain ⟨i, hi⟩ := h.key_eq ha
  obtain ⟨j, hj⟩ := h.key_eq hb
  have hparent : a.parentKey = b.parentKey := (syntheticKey_inj.1 (hi.symm.trans (hkey.trans hj))).1
  obtain ⟨n, hn⟩ := h.keysBelow_eq table b.parentKey
  have hnodup : (keysBelow ms table b.parentKey).Nodup := by
    rw [hn, List.Nodup, List.pairwise_map]
    exact List.nodup_range.imp fun hij h => hij (syntheticKey_inj.1 h).2
  have hboth : [a, b].Sublist (ms.filter fun m => m.entity.table = table && m.parentKey = b.parentKey) := by
    have hfilter := hab.filter fun m => m.parentKey = b.parentKey
    simpa [List.filter_filter, hparent, Bool.and_comm] using hfilter
  have hdiffer := hnodup.sublist (hboth.map Making.key)
  simp [hkey] at hdiffer

end Distinct

/-- Over any number of documents that a tabulator is fed with, and however often its tables are taken
out, the records that are kept are those of the documents that do not fail. Their keys that are
numbered differ within each table; below each key they are numbered from zero on, in the order in which
they are given out. -/
theorem numbered_keys_distinct {schema : Schema} {o : TabulatorOptions} {t : Tabulator}
    (ht : Tabulator.ofSchema schema o = .ok t) (cs : List Call) :
    (t.allDrained cs).merge (t.callAll cs).tables = Making.tables ((t.allGains cs).flatMap Gain.made) ∧
    (∀ g ∈ t.allGains cs, ∀ m, m ∈ g.numbered ↔ m ∈ g.made ∧ m.isNumbered g.source = true) ∧
    (∀ table, ((((t.allGains cs).flatMap Gain.numbered).filter fun m => m.entity.table = table).map
      Making.key).Nodup) ∧
    ∀ table parentKey, ∃ n, keysBelow ((t.allGains cs).flatMap Gain.numbered) table parentKey =
      (List.range n).map (syntheticKey parentKey) := by
  have hnew : t.counters = .empty ∧ t.tables = .empty := by
    rw [Tabulator.ofSchema] at ht
    split at ht
    · cases ht
    · cases ht
      exact ⟨rfl, rfl⟩
  obtain ⟨hspend, htables⟩ := t.callAll_spends cs
  rw [hnew.1] at hspend
  rw [hnew.2, Tables.empty_merge] at htables
  exact ⟨htables, fun g _ m => Gain.mem_numbered, hspend.nodup, hspend.keysBelow_eq⟩

def looseAlbums : Schema where
  paths := [("album", .entity ⟨"album", none, none⟩
    [("track", .alternatives [.entity ⟨"track", none, none⟩ [], .entity ⟨"track", none, none⟩ []])])]

def looseTabulator : Tabulator where
  schema := looseAlbums
  options := {}

/-- An album is kept and taken out; then one cannot be read, and another is kept. -/
def looseCalls : List Call :=
  [.feed ⟨[], [], none⟩ { text := "<album><track/></album>" }, .drain,
   .feed ⟨[], [], none⟩ { text := "<album><track/>" }, .feed ⟨[], [], none⟩ { text := "<album><track/></album>" }]

theorem numbered_keys_distinct_tracks :
    Tabulator.ofSchema looseAlbums {} = .ok looseTabulator ∧
    ((looseTabulator.allGains looseCalls).flatMap Gain.numbered).map Making.key =
      ["None_0", "None_0_0", "None_0_1", "None_1", "None_1_0", "None_1_1"] ∧
    (looseTabulator.allDrained looseCalls).keys = ["album", "track"] ∧
    (looseTabulator.callAll looseCalls).tables.keys = ["album", "track"] ∧
    ((((looseTabulator.allGains looseCalls).flatMap Gain.numbered).filter
      fun m => m.entity.table = "track").map Making.key).Nodup ∧
    ∃ n, keysBelow ((looseTabulator.allGains looseCalls).flatMap Gain.numbered) "track" "None_0" =
      (List.range n).map (syntheticKey "None_0") := by
  have ht : Tabulator.ofSchema looseAlbums {} = .ok looseTabulator := rfl
  obtain ⟨-, -, hnodup, hbelow⟩ := numbered_keys_distinct ht looseCalls
  refine ⟨ht, ?_, ?_, ?_, hnodup "track", hbelow "track" "None_0"⟩ <;> decide +kernel

end Tabulate
