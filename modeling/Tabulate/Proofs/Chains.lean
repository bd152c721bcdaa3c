import Mathlib.Data.List.Permutation
import Tabulate.Proofs.Axes
import Tabulate.Proofs.Positions

/-! What a path leads to, said by chains of places with one place for each step. Following a path finds
these places in document order, each of them once. -/
namespace Tabulate

open Xml (Document Location Namespaces Node)

mutual

/-- A path leads from a place to another, an absolute one from the document node. -/
def Path.Leads (d : Document) (m : Namespaces) : Path → Location → Location → Prop
  | .mk absolute steps, l, n => StepsLead d m steps (if absolute then Document.root else l) n

def StepsLead (d : Document) (m : Namespaces) : List Step → Location → Location → Prop
  | [], l, n => n = l
  | s :: ss, l, n => ∃ k, s.Picks d m l k ∧ StepsLead d m ss k n

def Step.Picks (d : Document) (m : Namespaces) : Step → Location → Location → Prop
  | .self, l, n => n = l
  | .parent, l, n => l.parent? = some n
  | .descendants, l, n => Relation.ReflTransGen d.IsChild l n
  | .child t ps, l, n => Passes d m ps (t.Offers d m l) n
  | .attr t ps, l, n => Passes d m ps (t.Offers d m l) n

def Passes (d : Document) (m : Namespaces) : List Predicate → (Location → Prop) → Location → Prop
  | [], C, n => C n
  | p :: ps, C, n => Passes d m ps (fun k => C k ∧ p.Admits d m C k) n

/-- A predicate admits a candidate. Positions count the candidates in document order from one on. -/
def Predicate.Admits (d : Document) (m : Namespaces) :
    Predicate → (Location → Prop) → Location → Prop
  | .position i, C, n => ∃ before after, d.Lists C (before ++ n :: after) ∧ before.length + 1 = i
  | .last, C, n => ∃ before, d.Lists C (before ++ [n])
  | .holds p, _, n => ∃ k, p.Leads d m n k
  | .equals p literal, _, n => ∃ k, p.Leads d m n k ∧ d.stringValue k = literal

end

open Xml.Document (descendantsOf_lists holds_of_below holds_of_offered holds_of_offered_attribute
  holds_parent lists_singleton lists_toList parentOf_eq)

section Following
variable {d : Document} {m : Namespaces}

theorem candidate_of_passes (ps : List Predicate) {C : Location → Prop} {n : Location}
    (h : Passes d m ps C n) : C n := by
  induction ps generalizing C with
  | nil => exact h
  | cons p ps ih =>
    rw [Passes] at h
    exact (ih h).1

theorem holds_of_picks {s : Step} {l n : Location} (hl : d.holds l = true) (h : s.Picks d m l n) :
    d.holds n = true := by
  cases s with
  | self =>
    cases h
    exact hl
  | parent => exact holds_parent hl h
  | descendants => exact holds_of_below hl h
  | child t ps => exact holds_of_offered (candidate_of_passes ps h)
  | attr t ps => exact holds_of_offered_attribute (candidate_of_passes ps h)

mutual

theorem Path.follow_lists :
    (p : Path) → p.fromOne = true → ∀ l, d.holds l = true → d.Lists (p.Leads d m l) (p.follow d m l)
  | .mk absolute steps => fun hp l hl => by
    have hstart : d.holds (if absolute then Document.root else l) = true := by
      split
      · rfl
      · exact hl
    refine (followSteps_lists steps hp (fun n => n = if absolute then Document.root else l) _ ?_
      (lists_singleton d _)).congr fun n => ?_
    · intro n hn
      exact hn ▸ hstart
    · simp [Path.Leads]

theorem followSteps_lists :
    (ss : List Step) → stepsFromOne ss = true → ∀ C ls, (∀ l, C l → d.holds l = true) → d.Lists C ls →
      d.Lists (fun n => ∃ l, C l ∧ StepsLead d m ss l n) (followSteps d m ss ls)
  | [] => fun _ C ls _ h => h.congr fun n => by simp [StepsLead]
  | s :: ss => fun hss C ls hC h => by
    rw [stepsFromOne, Bool.and_eq_true] at hss
    have hpicked (l n : Location) (hl : C l) : s.Picks d m l n → d.holds n = true :=
      holds_of_picks (hC l hl)
    have hreached := h.merge (fun l hl => s.reach_lists hss.1 l (hC l hl)) hpicked
    refine (followSteps_lists ss hss.2 _ _ ?_ hreached).congr fun n => ?_
    · intro n ⟨l, hl, hn⟩
      exact hpicked l n hl hn
    · constructor
      · intro ⟨k, ⟨l, hl, hk⟩, hn⟩
        exact ⟨l, hl, k, hk, hn⟩
      · intro ⟨l, hl, k, hk, hn⟩
        exact ⟨k, ⟨l, hl, hk⟩, hn⟩

theorem Step.reach_lists :
    (s : Step) → s.fromOne = true → ∀ l, d.holds l = true → d.Lists (s.Picks d m l) (s.reach d m l)
  | .self => fun _ l _ => lists_singleton d l
  | .parent => fun _ l _ => by
    rw [Step.reach, parentOf_eq]
    exact lists_toList l.parent?
  | .descendants => fun _ l hl => descendantsOf_lists hl
  | .child t ps => fun hs l _ =>
    keepAll_lists ps hs _ _ (fun _ => holds_of_offered) (d.childrenPassing_lists m t l)
  | .attr t ps => fun hs l _ =>
    keepAll_lists ps hs _ _ (fun _ => holds_of_offered_attribute)
      (d.attributesPassing_lists m t l)

theorem keepAll_lists :
    (ps : List Predicate) → predicatesFromOne ps = true → ∀ C ls, (∀ n, C n → d.holds n = true) →
      d.Lists C ls → d.Lists (Passes d m ps C) (keepAll d m ps ls)
  | [] => fun _ C ls _ h => h
  | p :: ps => fun hps C ls hC h => by
    rw [predicatesFromOne, Bool.and_eq_true] at hps
    exact keepAll_lists ps hps.2 _ _ (fun n hn => hC n hn.1) (p.keep_lists hps.1 C ls hC h)

theorem Predicate.keep_lists :
    (p : Predicate) → p.fromOne = true → ∀ C ls, (∀ n, C n → d.holds n = true) → d.Lists C ls →
      d.Lists (fun n => C n ∧ p.Admits d m C n) (p.keep d m ls)
  | .position i => fun hp C ls _ h => by
    obtain ⟨i, rfl⟩ := Nat.exists_eq_succ_of_ne_zero (bne_iff_ne.1 hp)
    simpa [Predicate.keep, Predicate.Admits] using h.position i
  | .last => fun _ C ls _ h => h.last
  | .holds p => fun hp C ls hC h => by
    rw [Predicate.keep]
    refine (h.filter _).congr fun n => and_congr_right fun hn => ?_
    have hfound := p.follow_lists hp n (hC n hn)
    simp [Predicate.Admits, List.eq_nil_iff_forall_not_mem, hfound.mem_iff]
  | .equals p literal => fun hp C ls hC h => by
    rw [Predicate.keep]
    refine (h.filter _).congr fun n => and_congr_right fun hn => ?_
    have hfound := p.follow_lists hp n (hC n hn)
    simp [Predicate.Admits, hfound.mem_iff]

end

end Following

/-- Following a path finds the places it leads to, in document order and each of them once. -/
theorem follow_finds_chains {text : String} {w : WrittenPath} (hw : Path.read text = .ok w)
    (d : Document) (m : Namespaces) {l : Location} (hl : d.holds l = true) :
    (w.path.follow d m l).Pairwise (fun a b => d.order a < d.order b) ∧
      ∀ n, n ∈ w.path.follow d m l ↔ w.path.Leads d m l n := by
  have h := w.path.follow_lists (d := d) (m := m) (read_fromOne hw) l hl
  exact ⟨h.increasing, h.mem_iff⟩

def trackShelf : Document :=
  let track : Node := .element ⟨none, "track"⟩ [] [] []
  ⟨[.element ⟨none, "shelf"⟩ [] []
    [.element ⟨none, "album"⟩ [] [] [track, track], .element ⟨none, "album"⟩ [] [] [track]]]⟩

def firstTracks : WrittenPath :=
  ⟨".//track[1]", .mk false [.self, .descendants, .child (.name (.named none "track")) [.position 1]]⟩

/-- The first track of each album is led to, a second one is not. -/
theorem follow_finds_chains_tracks : Path.read ".//track[1]" = .ok firstTracks ∧
    firstTracks.path.Leads trackShelf .empty (.node [0]) (.node [0, 0, 0]) ∧
    firstTracks.path.Leads trackShelf .empty (.node [0]) (.node [0, 1, 0]) ∧
    ¬firstTracks.path.Leads trackShelf .empty (.node [0]) (.node [0, 0, 1]) := by
  have hread : Path.read ".//track[1]" = .ok firstTracks := by rfl
  have hholds : trackShelf.holds (.node [0]) = true := by decide
  obtain ⟨-, hleads⟩ := follow_finds_chains hread trackShelf .empty hholds
  have hfound : firstTracks.path.follow trackShelf .empty (.node [0]) = [.node [0, 0, 0], .node [0, 1, 0]] := by
    cbv
  simp only [hfound] at hleads
  refine ⟨hread, (hleads _).1 (by simp), (hleads _).1 (by simp), fun h => ?_⟩
  exact absurd ((hleads _).2 h) (by simp)

end Tabulate
