import Tabulate.Path.Follow

/-! The alias of the default namespace in paths. An element's name is looked for in the default
namespace with the alias and without it, so taking the alias away does not change what is found. -/
namespace Tabulate

open Xml (Document Location Namespaces Node)

def NameTest.bare : NameTest → NameTest
  | named (some space) own =>
    if space = Namespaces.defaultAlias then named none own else named (some space) own
  | t => t

def NodeTest.bare : NodeTest → NodeTest
  | name t => name t.bare
  | t => t

mutual

def Path.bare : Path → Path
  | .mk absolute steps => .mk absolute (bareSteps steps)

def bareSteps : List Step → List Step
  | [] => []
  | s :: ss => s.bare :: bareSteps ss

def Step.bare : Step → Step
  | .self => .self
  | .parent => .parent
  | .descendants => .descendants
  | .child t ps => .child t.bare (barePredicates ps)
  | .attr t ps => .attr t (barePredicates ps)

def barePredicates : List Predicate → List Predicate
  | [] => []
  | p :: ps => p.bare :: barePredicates ps

def Predicate.bare : Predicate → Predicate
  | .position n => .position n
  | .last => .last
  | .holds p => .holds p.bare
  | .equals p literal => .equals p.bare literal

end

theorem bareSteps_append (ss ts : List Step) : bareSteps (ss ++ ts) = bareSteps ss ++ bareSteps ts := by
  induction ss with
  | nil => rfl
  | cons s ss ih => simp only [List.cons_append, bareSteps, ih]

def NameTest.unaliased : NameTest → Bool
  | any => true
  | anyUnder space => space != Namespaces.defaultAlias
  | named none _ => true
  | named (some space) _ => space != Namespaces.defaultAlias

def NodeTest.unaliased : NodeTest → Bool
  | name t => t.unaliased
  | _ => true

mutual

def Path.unaliased : Path → Bool
  | .mk _ steps => unaliasedSteps steps

def unaliasedSteps : List Step → Bool
  | [] => true
  | s :: ss => s.unaliased && unaliasedSteps ss

def Step.unaliased : Step → Bool
  | .self => true
  | .parent => true
  | .descendants => true
  | .child t ps => t.unaliased && unaliasedPredicates ps
  | .attr t ps => t.unaliased && unaliasedPredicates ps

def unaliasedPredicates : List Predicate → Bool
  | [] => true
  | p :: ps => p.unaliased && unaliasedPredicates ps

def Predicate.unaliased : Predicate → Bool
  | .position _ => true
  | .last => true
  | .holds p => p.unaliased
  | .equals p _ => p.unaliased

end

section Bare
variable {d : Document} {m : Namespaces} {uri : String}

theorem NameTest.accepts_bare (hm : m.default? = some uri) (t : NameTest) (n : Xml.Name) :
    t.bare.accepts m true n = t.accepts m true n := by
  match t with
  | any | anyUnder _ | named none _ => rfl
  | named (some space) own =>
    rw [bare]
    split
    · next h =>
      have hs : m.uri? space = some uri := h ▸ hm
      simp only [accepts, if_true, hm, hs]
    · rfl

theorem NodeTest.accepts_bare (hm : m.default? = some uri) (t : NodeTest) (n : Node) :
    t.bare.accepts m n = t.accepts m n := by
  match t, n with
  | name t, .element n _ _ _ => exact t.accepts_bare hm n
  | name _, .text _ | name _, .comment _ | name _, .instruction .. => rfl
  | text, _ | node, _ => rfl

theorem childrenPassing_bare (hm : m.default? = some uri) (t : NodeTest) (l : Location) :
    d.childrenPassing m t.bare l = d.childrenPassing m t l := by
  cases l with
  | node address => simp only [Document.childrenPassing, t.accepts_bare hm]
  | attr owner index => rfl

mutual

theorem Path.follow_bare (hm : m.default? = some uri) :
    (p : Path) → ∀ l, p.bare.follow d m l = p.follow d m l
  | .mk _ steps => fun _ => followSteps_bare hm steps _

theorem followSteps_bare (hm : m.default? = some uri) :
    (ss : List Step) → ∀ ls, followSteps d m (bareSteps ss) ls = followSteps d m ss ls
  | [] => fun ls => rfl
  | s :: ss => fun ls => by
    have hs : s.bare.reach d m = s.reach d m := funext (s.reach_bare hm)
    rw [bareSteps, followSteps, followSteps, hs, followSteps_bare hm ss]

theorem Step.reach_bare (hm : m.default? = some uri) :
    (s : Step) → ∀ l, s.bare.reach d m l = s.reach d m l
  | .self | .parent | .descendants => fun l => rfl
  | .child t ps => fun l => by
    rw [Step.bare, Step.reach, Step.reach, childrenPassing_bare hm, keepAll_bare hm ps]
  | .attr t ps => fun l => by
    rw [Step.bare, Step.reach, Step.reach, keepAll_bare hm ps]

theorem keepAll_bare (hm : m.default? = some uri) :
    (ps : List Predicate) → ∀ ls, keepAll d m (barePredicates ps) ls = keepAll d m ps ls
  | [] => fun ls => rfl
  | p :: ps => fun ls => by
    rw [barePredicates, keepAll, keepAll, p.keep_bare hm, keepAll_bare hm ps]

theorem Predicate.keep_bare (hm : m.default? = some uri) :
    (p : Predicate) → ∀ ls, p.bare.keep d m ls = p.keep d m ls
  | .position _ | .last => fun ls => rfl
  | .holds p => fun ls => by
    have hp : p.bare.follow d m = p.follow d m := funext (p.follow_bare hm)
    rw [Predicate.bare, Predicate.keep, Predicate.keep, hp]
  | .equals p literal => fun ls => by
    have hp : p.bare.follow d m = p.follow d m := funext (p.follow_bare hm)
    rw [Predicate.bare, Predicate.keep, Predicate.keep, hp]

end

end Bare

end Tabulate
