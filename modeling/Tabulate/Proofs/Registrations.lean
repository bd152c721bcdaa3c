import Tabulate.Proofs.Bindings

/-! Prefixes that are registered one after the other, in any order and any number of times. A prefix that is
registered for another URI leaves the old URI its name, so what a URI is called and what the name stands for
agree only where no prefix is taken away from the URI that it was the last to name. -/
namespace Tabulate.Xml

def Namespaces.ofRegistrations (rs : List (String × String)) : Namespaces :=
  rs.foldl (fun m r => m.insert r.1 r.2) .empty

section Latest
variable {α β : Type} [DecidableEq β] {key : α → β} {r s : α} {rs : List α} {k : β}

/-- The entries after which none has the same key. -/
def latest (key : α → β) : List α → List α
  | [] => []
  | r :: rs => if key r ∈ rs.map key then latest key rs else r :: latest key rs

theorem latest_sublist (key : α → β) (rs : List α) : (latest key rs).Sublist rs := by
  induction rs with
  | nil => exact List.Sublist.refl []
  | cons r rs ih =>
    rw [latest]
    split
    · exact ih.cons r
    · exact ih.cons_cons r

theorem latest_nodup (key : α → β) (rs : List α) : ((latest key rs).map key).Nodup := by
  induction rs with
  | nil => exact List.nodup_nil
  | cons r rs ih =>
    rw [latest]
    split
    · exact ih
    · next hnew =>
      rw [List.map_cons, List.nodup_cons]
      exact ⟨fun hmem => hnew (((latest_sublist key rs).map key).subset hmem), ih⟩

theorem eq_of_mem_latest (hr : r ∈ latest key rs) (hs : s ∈ latest key rs) (h : key r = key s) : r = s :=
  List.inj_on_of_nodup_map (latest_nodup key rs) hr hs h

/-- Every key has a last entry. -/
theorem exists_mem_latest (h : r ∈ rs) : ∃ s ∈ latest key rs, key s = key r := by
  induction rs generalizing r with
  | nil => cases h
  | cons a rs ih =>
    rw [latest]
    split
    · next hlater =>
      rcases List.mem_cons.1 h with rfl | hmem
      · obtain ⟨s, hs, hkey⟩ := List.mem_map.1 hlater
        rw [← hkey]
        exact ih hs
      · exact ih hmem
    · rcases List.mem_cons.1 h with rfl | hmem
      · exact ⟨r, List.mem_cons_self, rfl⟩
      · obtain ⟨s, hs, hkey⟩ := ih hmem
        exact ⟨s, List.mem_cons_of_mem _ hs, hkey⟩

/-- What is found by its key, the newest entry first, is the last entry with the key. -/
theorem find?_reverse_eq_some_iff :
    rs.reverse.find? (fun r => key r = k) = some r ↔ r ∈ latest key rs ∧ key r = k := by
  have hfound {s : α} (h : rs.reverse.find? (fun r => key r = k) = some s) :
      s ∈ latest key rs ∧ key s = k := by
    refine ⟨?_, by simpa using List.find?_some h⟩
    induction rs with
    | nil => cases h
    | cons a rs ih =>
      rw [List.reverse_cons, List.find?_append, Option.or_eq_some_iff] at h
      rw [latest]
      rcases h with hrest | ⟨hnone, hlast⟩
      · split
        · exact ih hrest
        · exact List.mem_cons_of_mem _ (ih hrest)
      · obtain rfl : s = a := by simpa using List.mem_of_find?_eq_some hlast
        have hkey : key s = k := by simpa using List.find?_some hlast
        rw [if_neg]
        · exact List.mem_cons_self
        · intro hlater
          obtain ⟨t, ht, htkey⟩ := List.mem_map.1 hlater
          exact absurd (decide_eq_true (htkey.trans hkey)) (List.find?_eq_none.1 hnone t (List.mem_reverse.2 ht))
  refine ⟨hfound, fun ⟨hr, hkey⟩ => ?_⟩
  obtain ⟨s, hs⟩ : ∃ s, rs.reverse.find? (fun r => key r = k) = some s := by
    rw [← Option.isSome_iff_exists, List.find?_isSome]
    exact ⟨r, List.mem_reverse.2 ((latest_sublist key rs).subset hr), decide_eq_true hkey⟩
  obtain ⟨hmem, hskey⟩ := hfound hs
  rw [hs, eq_of_mem_latest hr hmem (hkey.trans hskey.symm)]

end Latest

section Lookups
variable {rs : List (String × String)} {space uri : String}

theorem entries_ofRegistrations (rs : List (String × String)) :
    (Namespaces.ofRegistrations rs).entries = rs.reverse := by
  have hfold (m : Namespaces) : (rs.foldl (fun m r => m.insert r.1 r.2) m).entries = rs.reverse ++ m.entries := by
    induction rs generalizing m with
    | nil => rfl
    | cons r rs ih => rw [List.foldl_cons, ih, Namespaces.insert, List.reverse_cons, List.append_assoc]; rfl
  exact (hfold .empty).trans (List.append_nil _)

theorem aliasOf?_eq_some_iff :
    (Namespaces.ofRegistrations rs).aliasOf? uri = some space ↔ (space, uri) ∈ latest Prod.snd rs := by
  rw [Namespaces.aliasOf?, entries_ofRegistrations, Option.map_eq_some_iff]
  constructor
  · rintro ⟨⟨a, u⟩, hfind, rfl⟩
    obtain ⟨hmem, rfl⟩ := find?_reverse_eq_some_iff.1 hfind
    exact hmem
  · intro hmem
    exact ⟨(space, uri), find?_reverse_eq_some_iff.2 ⟨hmem, rfl⟩, rfl⟩

theorem uri?_eq_some_iff : (Namespaces.ofRegistrations rs).uri? space = some uri ↔
    (space, uri) ∈ latest Prod.fst rs ∨ (space = "xml" ∧ uri = xmlUri ∧ "xml" ∉ rs.map Prod.fst) := by
  rw [Namespaces.uri?, entries_ofRegistrations]
  split
  · next a u hfind =>
    obtain ⟨hmem, rfl⟩ := find?_reverse_eq_some_iff.1 hfind
    have hbound : a ∈ rs.map Prod.fst := List.mem_map.2 ⟨(a, u), (latest_sublist _ rs).subset hmem, rfl⟩
    constructor
    · intro h
      exact .inl (Option.some.inj h ▸ hmem)
    · rintro (hlast | ⟨rfl, -, hfree⟩)
      · exact congrArg (some ∘ Prod.snd) (eq_of_mem_latest hmem hlast rfl)
      · exact absurd hbound hfree
  · next hnone =>
    have hfree : space ∉ rs.map Prod.fst := by
      intro hmem
      obtain ⟨r, hr, hkey⟩ := List.mem_map.1 hmem
      exact absurd (decide_eq_true hkey) (List.find?_eq_none.1 hnone r (List.mem_reverse.2 hr))
    have hlast : (space, uri) ∉ latest Prod.fst rs := fun hmem =>
      hfree (List.mem_map.2 ⟨_, (latest_sublist _ rs).subset hmem, rfl⟩)
    by_cases hxml : space = "xml"
    · subst hxml
      simp [hlast, hfree, eq_comm]
    · simp [hlast, hxml]

/-- A URI that a prefix was registered for has a name. -/
theorem exists_aliasOf?_of_mem (h : (space, uri) ∈ rs) :
    ∃ a, (Namespaces.ofRegistrations rs).aliasOf? uri = some a := by
  have hlatest : ∃ r ∈ latest Prod.snd rs, r.2 = uri := exists_mem_latest h
  obtain ⟨⟨a, u⟩, hlast, rfl⟩ := hlatest
  exact ⟨a, aliasOf?_eq_some_iff.2 hlast⟩

end Lookups

section Tags
variable {m : Namespaces} {n n' : Name}

def Name.IsPlain (n : Name) : Prop := ∀ c ∈ n.localPart.toList, c ≠ ':' ∧ c ≠ '\x7d'

def Namespaces.label (m : Namespaces) (uri : String) : String ⊕ String :=
  match m.aliasOf? uri with
  | some space => .inl space
  | none => .inr uri

def labelText : Option (String ⊕ String) → List Char
  | none => []
  | some (.inl space) => space.toList ++ [':']
  | some (.inr uri) => '\x7b' :: uri.toList ++ ['\x7d']

theorem toList_tag (m : Namespaces) (n : Name) :
    (m.tag n).toList = labelText (n.uri.map m.label) ++ n.localPart.toList := by
  obtain ⟨uri?, own⟩ := n
  cases uri? with
  | none => rfl
  | some uri =>
    simp only [Namespaces.tag, Option.map_some, Namespaces.label]
    cases m.aliasOf? uri <;> simp [labelText, Name.expanded]

theorem labelText_getLast? (l : Option (String ⊕ String)) :
    (labelText l).getLast? = l.map (Sum.elim (fun _ => ':') fun _ => '\x7d') := by
  rcases l with - | (space | uri)
  · rfl
  · exact List.getLast?_concat
  · exact List.getLast?_concat

theorem labelText_injective : Function.Injective labelText := by
  intro l l' h
  have hlast := congrArg List.getLast? h
  rw [labelText_getLast?, labelText_getLast?] at hlast
  rcases l with - | (a | a) <;> rcases l' with - | (b | b) <;> simp [labelText, String.toList_inj] at h hlast ⊢
  · exact h
  · exact h

/-- The last sign of a label is where the own part begins. -/
theorem labelText_append_inj {l l' : Option (String ⊕ String)} {cs cs' : List Char}
    (hcs : ∀ c ∈ cs, c ≠ ':' ∧ c ≠ '\x7d') (hcs' : ∀ c ∈ cs', c ≠ ':' ∧ c ≠ '\x7d')
    (h : labelText l ++ cs = labelText l' ++ cs') : l = l' ∧ cs = cs' := by
  -- one label is not the other one and the beginning of an own part
  have hend {l : Option (String ⊕ String)} {ds es ts : List Char} (hl : labelText l = ds ++ es)
      (hes : ∀ c ∈ es ++ ts, c ≠ ':' ∧ c ≠ '\x7d') : es = [] := by
    rcases List.eq_nil_or_concat es with rfl | ⟨es, c, rfl⟩
    · rfl
    · have hlast : (labelText l).getLast? = some c := by simp [hl]
      have hc := hes c (by simp)
      rw [labelText_getLast?] at hlast
      rcases l with - | (space | uri)
      · cases hlast
      · exact absurd (Option.some.inj hlast).symm hc.1
      · exact absurd (Option.some.inj hlast).symm hc.2
  rcases List.append_eq_append_iff.1 h with ⟨es, hl', hsplit⟩ | ⟨es, hl, hsplit⟩
  · obtain rfl := hend hl' (hsplit ▸ hcs)
    exact ⟨labelText_injective (by simpa using hl'.symm), by simpa using hsplit⟩
  · obtain rfl := hend hl (hsplit ▸ hcs')
    exact ⟨labelText_injective (by simpa using hl), by simpa using hsplit.symm⟩

theorem label_eq_iff {u v : String} : m.label u = m.label v ↔
    u = v ∨ ∃ space, m.aliasOf? u = some space ∧ m.aliasOf? v = some space := by
  constructor
  · intro h
    rw [Namespaces.label, Namespaces.label] at h
    cases hu : m.aliasOf? u <;> cases hv : m.aliasOf? v <;> simp only [hu, hv] at h
    · exact .inl (Sum.inr.inj h)
    · cases h
    · cases h
    · exact .inr ⟨_, rfl, congrArg some (Sum.inl.inj h).symm⟩
  · rintro (rfl | ⟨space, hu, hv⟩)
    · rfl
    · rw [Namespaces.label, Namespaces.label, hu, hv]

/-- Two names have one tag only with one own part, and in two namespaces only if these have one name. -/
theorem tag_eq_tag_iff (hn : n.IsPlain) (hn' : n'.IsPlain) : m.tag n = m.tag n' ↔ n = n' ∨
    (n.localPart = n'.localPart ∧ ∃ u ∈ n.uri, ∃ v ∈ n'.uri, ∃ space,
      m.aliasOf? u = some space ∧ m.aliasOf? v = some space) := by
  obtain ⟨uri?, own⟩ := n
  obtain ⟨uri'?, own'⟩ := n'
  have htag : m.tag ⟨uri?, own⟩ = m.tag ⟨uri'?, own'⟩ ↔ uri?.map m.label = uri'?.map m.label ∧ own = own' := by
    rw [← String.toList_inj, toList_tag, toList_tag]
    constructor
    · intro h
      obtain ⟨hlabel, hown⟩ := labelText_append_inj hn hn' h
      exact ⟨hlabel, String.toList_injective hown⟩
    · rintro ⟨hlabel, rfl⟩
      rw [hlabel]
  rw [htag]
  cases uri? <;> cases uri'? <;> simp [label_eq_iff]
  tauto

end Tags

section Inverse
variable {m : Namespaces} {rs : List (String × String)}

def Namespaces.Inverts (m : Namespaces) : Prop :=
  ∀ space uri, m.aliasOf? uri = some space → m.uri? space = some uri

def Namespaces.TellsApart (m : Namespaces) : Prop :=
  ∀ n n' : Name, n.IsPlain → n'.IsPlain → m.tag n = m.tag n' → n = n'

theorem tellsApart_iff :
    m.TellsApart ↔ ∀ space u v, m.aliasOf? u = some space → m.aliasOf? v = some space → u = v := by
  constructor
  · intro htells space u v hu hv
    have hplain (uri : String) : Name.IsPlain ⟨some uri, "a"⟩ := by simp [Name.IsPlain]
    have htag : m.tag ⟨some u, "a"⟩ = m.tag ⟨some v, "a"⟩ :=
      (tag_eq_tag_iff (hplain u) (hplain v)).2 (.inr ⟨rfl, u, rfl, v, rfl, space, hu, hv⟩)
    exact Option.some.inj (congrArg Name.uri (htells _ _ (hplain u) (hplain v) htag))
  · intro hone n n' hn hn' htag
    obtain rfl | ⟨hown, u, hu, v, hv, space, hus, hvs⟩ := (tag_eq_tag_iff hn hn').1 htag
    · rfl
    · obtain rfl := hone space u v hus hvs
      obtain ⟨uri?, own⟩ := n
      obtain ⟨uri'?, own'⟩ := n'
      cases hu
      cases hv
      rw [Name.mk.injEq]
      exact ⟨rfl, hown⟩

theorem Namespaces.Inverts.tellsApart (h : m.Inverts) : m.TellsApart :=
  tellsApart_iff.2 fun space u v hu hv => Option.some.inj ((h space u hu).symm.trans (h space v hv))

theorem inverts_iff : (Namespaces.ofRegistrations rs).Inverts ↔ latest Prod.snd rs ⊆ latest Prod.fst rs := by
  constructor
  · rintro h ⟨space, uri⟩ hmem
    obtain hlast | ⟨rfl, -, hfree⟩ := uri?_eq_some_iff.1 (h space uri (aliasOf?_eq_some_iff.2 hmem))
    · exact hlast
    · exact absurd (List.mem_map.2 ⟨_, (latest_sublist _ rs).subset hmem, rfl⟩) hfree
  · intro hsub space uri halias
    exact uri?_eq_some_iff.2 (.inl (hsub (aliasOf?_eq_some_iff.1 halias)))

theorem tellsApart_ofRegistrations_iff :
    (Namespaces.ofRegistrations rs).TellsApart ↔ ((latest Prod.snd rs).map Prod.fst).Nodup := by
  rw [tellsApart_iff]
  constructor
  · intro hone
    refine List.Nodup.map_on ?_ (List.Nodup.of_map _ (latest_nodup Prod.snd rs))
    rintro ⟨a, u⟩ hu ⟨b, v⟩ hv rfl
    rw [hone a u v (aliasOf?_eq_some_iff.2 hu) (aliasOf?_eq_some_iff.2 hv)]
  · intro hnodup space u v hu hv
    have he := List.inj_on_of_nodup_map hnodup (aliasOf?_eq_some_iff.1 hu) (aliasOf?_eq_some_iff.1 hv) rfl
    exact (Prod.mk.inj he).2

/-- However prefixes are registered, a URI that a prefix stands for has a name, unless the prefix is `xml`
and was never registered. The name stands for the URI exactly where the last registration of a URI is also
the last one of its prefix; then all tags differ, as they do exactly where no prefix is the last of two
URIs. -/
theorem inverse_of_registrations (rs : List (String × String)) :
    (∀ space uri, (Namespaces.ofRegistrations rs).uri? space = some uri →
      (∃ a, (Namespaces.ofRegistrations rs).aliasOf? uri = some a) ∨
        (space = "xml" ∧ uri = xmlUri ∧ "xml" ∉ rs.map Prod.fst)) ∧
    ((Namespaces.ofRegistrations rs).Inverts ↔ latest Prod.snd rs ⊆ latest Prod.fst rs) ∧
    ((Namespaces.ofRegistrations rs).TellsApart ↔ ((latest Prod.snd rs).map Prod.fst).Nodup) ∧
    ((Namespaces.ofRegistrations rs).Inverts → (Namespaces.ofRegistrations rs).TellsApart) := by
  refine ⟨fun space uri huri => ?_, inverts_iff, tellsApart_ofRegistrations_iff, fun h => h.tellsApart⟩
  exact (uri?_eq_some_iff.1 huri).imp_left fun hlast =>
    exists_aliasOf?_of_mem ((latest_sublist _ rs).subset hlast)

/-- A prefix is taken for a second URI and stays the name of the first, which it no longer stands for. A
document does so whose default namespace is declared before its alias is declared as a prefix: the child is
written as its parent is. -/
theorem name_of_rebound_prefix :
    let m := Namespaces.ofRegistrations [("a", "u"), ("a", "v")]
    let bs : List Binding := [⟨none, "u"⟩, ⟨some "_", "v"⟩]
    let d : Document := ⟨[.element ⟨some "u", "b"⟩ bs [] [.element ⟨some "v", "b"⟩ [] [] []]]⟩
    m.aliasOf? "u" = some "a" ∧ m.uri? "a" = some "v" ∧
      m.tag ⟨some "u", "b"⟩ = "a:b" ∧ m.tag ⟨some "v", "b"⟩ = "a:b" ∧
      Document.read? "<b xmlns=\"u\" xmlns:_=\"v\"><_:b/></b>" = some d ∧
      (Namespaces.ofDocument d).tag ⟨some "u", "b"⟩ = "_:b" ∧
      (Namespaces.ofDocument d).tag ⟨some "v", "b"⟩ = "_:b" := by
  refine ⟨by decide, by decide, by decide, by decide, by rfl, ?_, ?_⟩ <;> decide +kernel

end Inverse

end Tabulate.Xml
