import ApiSuite.Proofs.Expression.Evaluation
import ApiSuite.Proofs.Template.Path
import ApiSuite.Proofs.Values.Keyed
import ApiSuite.Proofs.Values.Memo

/-!
# Lookups and the merged view

A path can be looked up, holder by holder from the highest precedence down, or followed in the
merged view, which is made from the lowest precedence up. The two agree on any value of the
view that is no object, and where the view has nothing although a lookup finds something, a
holder of higher precedence **shadows** the one it was found in: both have something at one
place on the way, and these are not both objects
(`ApiSuite.Resolver.getValue_differs_by_shadowing`).

Both halves go over the holders from the highest down, since the view of some holders is that
of the lower ones with the highest merged over it. The invariant of the second half is
`ApiSuite.Value.Tracks`: along the path, the view goes on agreeing with the holder that the
lookup ends in.
-/

namespace ApiSuite

open Expression

namespace Value

/-! ### Following a path through objects -/

variable {path rest : List Segment} {s : Segment} {v w : Value}
  {base es fs : List (Value × Value)}

/-- The value that is present at the end of a path which leads through objects only. -/
def reach : Value → List Segment → Option Value
  | v, [] => some v
  | .object entries, s :: rest => (lookup (Segment.asKey s) entries).bind fun w => reach w rest
  | _, _ :: _ => none

theorem reach_object :
    reach (.object es) (s :: rest) =
      (lookup (Segment.asKey s) es).bind fun w => reach w rest := by
  rw [reach]

/-- A value shadows another on the way along a path: at some place on the way both have
something, and these are not both objects. -/
def Shadows (path : List Segment) (upper lower : Value) : Prop :=
  ∃ q, q ≠ [] ∧ q <+: path ∧ ∃ a b, reach upper q = some a ∧ reach lower q = some b ∧
    ¬(a.isObject ∧ b.isObject)

/-! ### What the view has, a holder has -/

/-- **A value in a merge is whole in one of its parts**: what is no object comes from the
upper entries, or from the lower ones if the upper have nothing there. -/
theorem follow_merge (hes : KeyedEntries es)
    (hv : follow (.object (merge base es)) path = .ok v) (hn : v.isNull = false)
    (ho : v.isObject = false) :
    follow (.object es) path = .ok v ∨
      follow (.object es) path = .ok .null ∧ follow (.object base) path = .ok v := by
  induction path generalizing base es with
  | nil =>
    cases hv
    cases ho
  | cons s rest ih =>
    rw [follow_object] at hv
    rw [follow_object, follow_object]
    cases hl : lookup (Segment.asKey s) es with
    | none =>
      rw [lookup_merge_of_none hes hl] at hv
      exact .inr ⟨follow_null, hv⟩
    | some w =>
      rw [lookup_merge_of_some hes hl] at hv
      rcases override_cases (lookup (Segment.asKey s) base) w with hw | ⟨b, e, hb, rfl, hw⟩
      · exact .inl (hw ▸ hv)
      · -- two objects: the question is the same one step further on
        have hkeyed : KeyedEntries e := hes.lookup hl
        rw [hb]
        exact ih hkeyed (hw ▸ hv)

/-! ### What a holder has, the view has -/

/-- Along a path, a value agrees with another: both are objects as far as the path leads
through objects in the other, and where the other is none, they are the same. -/
inductive Tracks : List Segment → Value → Value → Prop
  | whole {path : List Segment} {v : Value} : v.isObject = false → Tracks path v v
  | objects {es fs : List (Value × Value)} : Tracks [] (.object es) (.object fs)
  | step {s : Segment} {rest : List Segment} {es fs : List (Value × Value)} {a b : Value} :
      lookup (Segment.asKey s) es = some a → lookup (Segment.asKey s) fs = some b →
      Tracks rest a b → Tracks (s :: rest) (.object es) (.object fs)

theorem Tracks.isObject (h : Tracks path v w) : v.isObject = w.isObject := by
  cases h <;> rfl

/-- Where a value is tracked, there is something if there is in that value. -/
theorem Tracks.follow (h : Tracks path v w) {u : Value} (hu : follow w path = .ok u)
    (hn : u.isNull = false) : ∃ u', Expression.follow v path = .ok u' ∧ u'.isNull = false := by
  induction h generalizing u with
  | whole => exact ⟨u, hu, hn⟩
  | objects => exact ⟨_, rfl, rfl⟩
  | step ha hb _ ih =>
    rw [follow_object, hb] at hu
    rw [follow_object, ha]
    exact ih hu hn

/-- Something that a path leads to in an object has its first step. -/
theorem lookup_of_follow (hw : follow (.object es) (s :: rest) = .ok w) (hn : w.isNull = false) :
    ∃ b, lookup (Segment.asKey s) es = some b ∧ follow b rest = .ok w := by
  rw [follow_object] at hw
  cases hl : lookup (Segment.asKey s) es with
  | none =>
    rw [hl] at hw
    cases (follow_null.symm.trans hw)
    cases hn
  | some b =>
    rw [hl] at hw
    exact ⟨b, rfl, hw⟩

theorem tracks_self (hw : follow v path = .ok w) (hn : w.isNull = false) : Tracks path v v := by
  induction path generalizing v with
  | nil => cases v <;> first | exact .objects | exact .whole rfl
  | cons s rest ih =>
    cases v with
    | object es =>
      obtain ⟨b, hb, hrest⟩ := lookup_of_follow hw hn
      exact .step hb hb (ih hrest)
    | _ => exact .whole rfl

/-- Entries merged over others are tracked along a path that leads to something in them. -/
theorem tracks_merge (hes : KeyedEntries es) (hw : follow (.object es) path = .ok w)
    (hn : w.isNull = false) : Tracks path (.object (merge base es)) (.object es) := by
  induction path generalizing base es with
  | nil => exact .objects
  | cons s rest ih =>
    obtain ⟨b, hb, hrest⟩ := lookup_of_follow hw hn
    have hm : lookup (Segment.asKey s) (merge base es) = _ := lookup_merge_of_some hes hb
    rcases override_cases (lookup (Segment.asKey s) base) b with ho | ⟨c, e, hc, rfl, ho⟩
    · -- from here on the upper entries are there whole
      rw [ho] at hm
      exact .step hm hb (tracks_self hrest hn)
    · rw [ho] at hm
      exact .step hm hb (ih (hes.lookup hb) hrest)

/-- **What does not shadow can be merged over**: the value tracked stays tracked. -/
theorem Tracks.merge {k : Value} (h : Tracks path (.object base) k) (hes : KeyedEntries es)
    (hs : ¬Shadows path (.object es) k) : Tracks path (.object (Value.merge base es)) k := by
  induction path generalizing base es k with
  | nil =>
    cases h with
    | whole hv => cases hv
    | objects => exact .objects
  | cons s rest ih =>
    cases h with
    | whole hv => cases hv
    | @step _ _ _ ks a b ha hb hab =>
      cases hl : lookup (Segment.asKey s) es with
      | none => exact .step ((lookup_merge_of_none hes hl).trans ha) hb hab
      | some c =>
        have hm : lookup (Segment.asKey s) (Value.merge base es) = _ :=
          lookup_merge_of_some hes hl
        -- This step is a place where both have something; if it does not shadow, the path
        -- goes on through objects, and what is merged over there is the next object down.
        have hboth : c.isObject ∧ b.isObject := by
          refine Decidable.byContradiction fun hne => hs ?_
          exact ⟨[s], by simp, ⟨rest, rfl⟩, c, b, by simp [reach, hl], by simp [reach, hb], hne⟩
        obtain ⟨cs, rfl⟩ := isObject_iff.mp hboth.1
        obtain ⟨as, rfl⟩ := isObject_iff.mp (hab.isObject.trans hboth.2)
        rw [ha, override] at hm
        refine .step hm hb (ih hab (hes.lookup hl) ?_)
        rintro ⟨q, hq, hpre, u, v, hu, hv, hne⟩
        refine hs ⟨s :: q, by simp, List.cons_prefix_cons.mpr ⟨rfl, hpre⟩, u, v, ?_, ?_, hne⟩
        · rw [reach_object, hl]
          exact hu
        · rw [reach_object, hb]
          exact hv

end Value

/-! ### Sources -/

section Sources

variable {path : List Segment} {s : Source} {rest below : List Source} {v : Value}

/-- The view of some sources is that of the lower ones with the highest merged over it. -/
theorem mergedEntries_cons :
    mergedEntries (s :: rest) = Value.merge (mergedEntries rest) s.entries := by
  simp [mergedEntries]

/-- Something in the view that is no object is in some source, above which nothing is. -/
theorem exists_source_of_follow {sources : List Source}
    (hkeyed : ∀ s ∈ sources, Value.KeyedEntries s.entries)
    (hv : follow (.object (mergedEntries sources)) path = .ok v) (hn : v.isNull = false)
    (ho : v.isObject = false) :
    ∃ above s below, sources = above ++ s :: below ∧ follow (.object s.entries) path = .ok v ∧
      ∀ t ∈ above, follow (.object t.entries) path = .ok .null := by
  induction sources with
  | nil =>
    cases path with
    | nil =>
      cases hv
      cases ho
    | cons =>
      cases hv
      cases hn
  | cons s rest ih =>
    rw [mergedEntries_cons] at hv
    rcases Value.follow_merge (hkeyed s (by simp)) hv hn ho with hs | ⟨hs, hrest⟩
    · exact ⟨[], s, rest, rfl, hs, by simp⟩
    · obtain ⟨above, t, below, rfl, ht, habove⟩ :=
        ih (fun t ht => hkeyed t (List.mem_cons_of_mem s ht)) hrest
      exact ⟨s :: above, t, below, rfl, ht, List.forall_mem_cons.mpr ⟨hs, habove⟩⟩

/-- The view tracks a source that is not shadowed by any above it. -/
theorem tracks_mergedEntries {above : List Source}
    (hkeyed : ∀ t ∈ above ++ s :: below, Value.KeyedEntries t.entries)
    (hv : follow (.object s.entries) path = .ok v) (hn : v.isNull = false)
    (hs : ∀ t ∈ above, ¬Value.Shadows path (.object t.entries) (.object s.entries)) :
    Value.Tracks path (.object (mergedEntries (above ++ s :: below))) (.object s.entries) := by
  induction above with
  | nil =>
    rw [List.nil_append, mergedEntries_cons]
    exact Value.tracks_merge (hkeyed s (by simp)) hv hn
  | cons t above ih =>
    have htail := ih (fun u hu => hkeyed u (List.mem_cons_of_mem t hu))
      fun u hu => hs u (List.mem_cons_of_mem t hu)
    rw [List.cons_append, mergedEntries_cons]
    exact htail.merge (hkeyed t (by simp)) (hs t (by simp))

/-- **What a source has and the view has not is shadowed** in that source, by one above it. -/
theorem exists_shadows {above : List Source}
    (hkeyed : ∀ t ∈ above ++ s :: below, Value.KeyedEntries t.entries)
    (hv : follow (.object s.entries) path = .ok v) (hn : v.isNull = false)
    (hview : follow (.object (mergedEntries (above ++ s :: below))) path = .ok .null) :
    ∃ t ∈ above, Value.Shadows path (.object t.entries) (.object s.entries) := by
  refine Classical.byContradiction fun hnone => ?_
  have htracks := tracks_mergedEntries hkeyed hv hn
    fun t ht hs => hnone ⟨t, ht, hs⟩
  obtain ⟨u, hu, hun⟩ := htracks.follow hv hn
  cases hview.symm.trans hu
  cases hun

end Sources

/-! ### Lookups of paths -/

section Lookups

variable {p root : String} {segments : List Segment} {trusted : Bool}
  {sources : List Source}

theorem result_firstValue_cons (e : String) (s : Source) (rest : List Source) :
    (firstValue trusted e (s :: rest)).result =
      match (Template.resolve trusted (.object s.entries) e).result with
      | .ok (some v) => .ok (some ⟨v, s.location⟩)
      | .ok none => (firstValue trusted e rest).result
      | .error fault => .error fault := by
  rw [firstValue, Traced.result_bind]
  cases (Template.resolve trusted (.object s.entries) e).result with
  | error fault => rfl
  | ok found => cases found <;> rfl

/-- **The first source to do anything but come to nothing decides**: with its value, or by
breaking. -/
theorem firstValue_cases (trusted : Bool) (key : String) (sources : List Source) :
    ((∀ s ∈ sources, (Template.resolve trusted (.object s.entries) key).result = .ok none) ∧
        (firstValue trusted key sources).result = .ok none) ∨
      ∃ above s below, sources = above ++ s :: below ∧
        (∀ t ∈ above, (Template.resolve trusted (.object t.entries) key).result = .ok none) ∧
        ((∃ v, (Template.resolve trusted (.object s.entries) key).result = .ok (some v) ∧
            (firstValue trusted key sources).result = .ok (some ⟨v, s.location⟩)) ∨
          ∃ fault, (Template.resolve trusted (.object s.entries) key).result = .error fault ∧
            (firstValue trusted key sources).result = .error fault) := by
  induction sources with
  | nil => exact .inl ⟨by simp, rfl⟩
  | cons s rest ih =>
    have hfirst := @result_firstValue_cons trusted key s rest
    rcases hs : (Template.resolve trusted (.object s.entries) key).result with fault | _ | v
    · rw [hs] at hfirst
      exact .inr ⟨[], s, rest, rfl, by simp, .inr ⟨fault, hs, hfirst⟩⟩
    · -- a source that comes to nothing leaves it to the ones below it
      rw [hs] at hfirst
      dsimp only at hfirst
      rw [hfirst]
      rcases ih with ⟨hnone, hresult⟩ | ⟨above, t, below, rfl, habove, ht⟩
      · exact .inl ⟨List.forall_mem_cons.mpr ⟨hs, hnone⟩, hresult⟩
      · exact .inr ⟨s :: above, t, below, rfl, List.forall_mem_cons.mpr ⟨hs, habove⟩, ht⟩
    · rw [hs] at hfirst
      exact .inr ⟨[], s, rest, rfl, by simp, .inl ⟨v, hs, hfirst⟩⟩

/-- A path is found in the first source that has something there. -/
theorem firstValue_of_follow (hp : Template.IsPath p root segments) {above below : List Source}
    {s : Source} {v : Value}
    (habove : ∀ t ∈ above, follow (.object t.entries) (.key root :: segments) = .ok .null)
    (hv : follow (.object s.entries) (.key root :: segments) = .ok v) (hn : v.isNull = false) :
    (firstValue trusted (Template.toExpression p) (above ++ s :: below)).result =
      .ok (some ⟨v, s.location⟩) := by
  induction above with
  | nil =>
    rw [List.nil_append, result_firstValue_cons, hp.resolve_of_ok trusted hv]
    simp [Template.present, hn]
  | cons t above ih =>
    rw [List.cons_append, result_firstValue_cons,
      hp.resolve_of_ok trusted (habove t (by simp))]
    exact ih fun u hu => habove u (List.mem_cons_of_mem t hu)

/-- What is found is in some source, above which nothing is. -/
theorem follow_of_firstValue (hp : Template.IsPath p root segments) {lv : LocatedValue}
    (h : (firstValue trusted (Template.toExpression p) sources).result = .ok (some lv)) :
    ∃ above s below, sources = above ++ s :: below ∧ lv.location = s.location ∧
      follow (.object s.entries) (.key root :: segments) = .ok lv.value ∧
      lv.value.isNull = false ∧ ∀ t ∈ above, ∀ v,
        follow (.object t.entries) (.key root :: segments) = .ok v → v = .null := by
  rcases firstValue_cases trusted (Template.toExpression p) sources with
    ⟨-, hnone⟩ | ⟨above, s, below, hs, habove, ⟨v, hv, hfound⟩ | ⟨fault, -, hfault⟩⟩
  · cases hnone.symm.trans h
  · cases hfound.symm.trans h
    obtain ⟨hfollow, hn⟩ := hp.follow_of_resolve hv
    refine ⟨above, s, below, hs, rfl, hfollow, hn, fun t ht w hw => ?_⟩
    have hpresent := Except.ok.inj ((hp.resolve_of_ok trusted hw).symm.trans (habove t ht))
    cases w <;> first | rfl | cases hpresent
  · cases hfault.symm.trans h

end Lookups

/-! ### Holders -/

namespace ValuesHolder

/-- The entries of a holder as lookups see them, with environment variables put in; none if
they cannot be read. -/
def shown (env : Environment) (h : ValuesHolder) : List (Value × Value) :=
  match h.entries with
  | .ok entries => env.substituteEntries entries
  | .error _ => []

/-- The source that a holder is to lookups. -/
def source (env : Environment) (h : ValuesHolder) : Source := ⟨h.shown env, h.location⟩

/-- A holder whose object, if it has one, is keyed. -/
def Keyed (h : ValuesHolder) : Prop :=
  ∀ fields, h.values = .object fields → (Value.ofFields fields).Keyed

/-- **Lookups see keyed entries**, whether a holder has an object or a JSON text. -/
theorem Keyed.shown {h : ValuesHolder} (hk : h.Keyed) (env : Environment) :
    Value.KeyedEntries (h.shown env) := by
  have hentries : ∀ entries, h.entries = .ok entries → Value.KeyedEntries entries := by
    intro entries he
    unfold ValuesHolder.entries at he
    split at he
    · rename_i fields hfields
      cases he
      exact hk fields hfields
    · split at he
      · rename_i read hread
        cases he
        exact Json.keyed_of_read hread
      all_goals cases he
  unfold ValuesHolder.shown
  split
  · rename_i entries he
    exact (hentries entries he).substitute
  · trivial

end ValuesHolder

theorem source_of_ofHolder {h : ValuesHolder} {s : Source} (hs : Source.ofHolder h = .ok s)
    (env : Environment) : s.withEnvironment env = h.source env := by
  unfold ValuesHolder.source ValuesHolder.shown
  cases he : h.entries with
  | error fault =>
    simp only [Source.ofHolder, he] at hs
    cases hs
  | ok entries =>
    simp only [Source.ofHolder, he] at hs
    cases hs
    rfl

theorem sources_of_mapM {holders : List ValuesHolder} {sources : List Source}
    (h : holders.mapM Source.ofHolder = .ok sources) (env : Environment) :
    sources.map (Source.withEnvironment env) = holders.map (ValuesHolder.source env) := by
  induction holders generalizing sources with
  | nil =>
    cases h
    rfl
  | cons holder holders ih =>
    rw [List.mapM_cons] at h
    cases hs : Source.ofHolder holder with
    | error fault =>
      rw [hs] at h
      cases h
    | ok s =>
      cases hrest : holders.mapM Source.ofHolder with
      | error fault =>
        rw [hs, hrest] at h
        cases h
      | ok rest =>
        rw [hs, hrest] at h
        cases h
        rw [List.map_cons, List.map_cons, source_of_ofHolder hs, ih hrest]

namespace Resolver

section Holders

variable {holders : List ValuesHolder} {options : ValuesOptions} {policy : RequiredPolicy}
  {r : Resolver}

/-- The sources of a resolver are its holders, the highest precedence first. -/
theorem currentSources_of_ofHolders (h : Resolver.ofHolders holders options policy = .ok r) :
    r.currentSources = holders.reverse.map (ValuesHolder.source options.env) := by
  obtain ⟨sources, hs, rfl⟩ := exists_sources_of_ofHolders h
  exact sources_of_mapM hs _

/-- Sources cut in two are holders cut in two, the other way round. -/
theorem split_of_currentSources (h : Resolver.ofHolders holders options policy = .ok r)
    {above below : List Source} {s : Source} (hs : r.currentSources = above ++ s :: below) :
    ∃ lower k higher, holders = lower ++ k :: higher ∧ s = k.source options.env ∧
      above = higher.reverse.map (ValuesHolder.source options.env) := by
  rw [currentSources_of_ofHolders h] at hs
  obtain ⟨higher, tail, hcut, hhigher, htail⟩ := List.map_eq_append_iff.mp hs
  obtain ⟨k, lower, rfl, hk, -⟩ := List.map_eq_cons_iff.mp htail
  refine ⟨lower.reverse, k, higher.reverse, ?_, hk.symm, ?_⟩
  · rw [← List.reverse_reverse holders, hcut]
    simp
  · rw [List.reverse_reverse, hhigher]

theorem keyed_currentSources (h : Resolver.ofHolders holders options policy = .ok r)
    (hk : ∀ h ∈ holders, h.Keyed) : ∀ s ∈ r.currentSources, Value.KeyedEntries s.entries := by
  rw [currentSources_of_ofHolders h]
  intro s hs
  obtain ⟨holder, hholder, rfl⟩ := List.mem_map.mp hs
  exact (hk holder (List.mem_reverse.mp hholder)).shown options.env

/-- A path is looked up among the sources in its wrapper. -/
theorem result_getValue {p root : String} {segments : List Segment}
    (hp : Template.IsPath p root segments) :
    (r.getValue p []).1.result =
      (firstValue r.options.trusted (Template.toExpression p) r.currentSources).result := by
  have hkey : lookupKey p = Template.toExpression p := by
    rw [lookupKey, if_pos (Template.isPlain_of_not_mem hp.noBrace)]
  rw [getValue_nil, hkey, findValue, if_neg (by simp [hp.not_isReference])]

/-- **A lookup and the merged view differ only by shadowing.** Over holders of keyed objects,
in any environment: where the view has something at the end of a path that is no object, the
path is looked up to just that; and where a path is looked up to something that a holder has,
while the view has nothing there, some holder of higher precedence shadows that holder on the
way along the path. -/
theorem getValue_differs_by_shadowing (h : Resolver.ofHolders holders options policy = .ok r)
    (hk : ∀ h ∈ holders, h.Keyed) {p root : String} {segments : List Segment}
    (hp : Template.IsPath p root segments) :
    (∀ v, follow (.object r.values) (.key root :: segments) = .ok v →
        v.isNull = false → v.isObject = false →
        ∃ place, (r.getValue p []).1.result = .ok (some ⟨v, place⟩)) ∧
      ∀ lv, (r.getValue p []).1.result = .ok (some lv) →
        follow (.object r.values) (.key root :: segments) = .ok .null →
        ∃ lower k higher, holders = lower ++ k :: higher ∧ lv.location = k.location ∧
          follow (.object (k.shown options.env)) (.key root :: segments) = .ok lv.value ∧
          (∀ j ∈ higher, ∀ v,
            follow (.object (j.shown options.env)) (.key root :: segments) = .ok v → v = .null) ∧
          ∃ j ∈ higher, Value.Shadows (.key root :: segments) (.object (j.shown options.env))
            (.object (k.shown options.env)) := by
  have hkeyed := keyed_currentSources h hk
  rw [result_getValue hp]
  constructor
  · intro v hv hn ho
    obtain ⟨above, s, below, hs, hfollow, habove⟩ := exists_source_of_follow hkeyed hv hn ho
    rw [hs]
    exact ⟨s.location, firstValue_of_follow hp habove hfollow hn⟩
  · intro lv hlv hview
    obtain ⟨above, s, below, hs, hloc, hfollow, hn, habove⟩ := follow_of_firstValue hp hlv
    unfold values at hview
    rw [hs] at hkeyed hview
    obtain ⟨t, ht, hshadows⟩ := exists_shadows hkeyed hfollow hn hview
    -- the sources above the one found are the holders of higher precedence
    obtain ⟨lower, k, higher, hcut, rfl, rfl⟩ := split_of_currentSources h hs
    refine ⟨lower, k, higher, hcut, hloc, hfollow, ?_, ?_⟩
    · intro j hj
      exact habove _ (List.mem_map_of_mem (List.mem_reverse.mpr hj))
    · obtain ⟨j, hj, rfl⟩ := List.mem_map.mp ht
      exact ⟨j, List.mem_reverse.mp hj, hshadows⟩

end Holders

/-! ### A number over an object -/

/-- A holder with an object under a name. -/
def nestedHolder : ValuesHolder :=
  ⟨.object [("a", .ofFields [("b", .int 5)])], some ⟨"nested.json", none⟩, none⟩

/-- A holder with a number under that name. -/
def flatHolder : ValuesHolder := ⟨.object [("a", .int 7)], some ⟨"flat.json", none⟩, none⟩

/-- The resolver over both, the number the higher. -/
def flatOverNested : Resolver :=
  ⟨.default, .proceed,
    [⟨[(.str "a", .int 7)], some ⟨"flat.json", none⟩⟩,
      ⟨[(.str "a", .ofFields [("b", .int 5)])], some ⟨"nested.json", none⟩⟩], []⟩

theorem isPath_member : Template.IsPath "a.b" "a" [.key "b"] where
  noBrace := by decide
  noBreak := by decide
  reads := by
    have hholds : Holds "a.b" ['a', '.', 'b'] := by
      refine .inr ⟨?_, by decide⟩
      rintro ⟨body, hbody⟩
      have htrim : Text.trim "a.b".toList = ['a', '.', 'b'] := by decide
      rw [htrim] at hbody
      cases hbody
    have ha : (Token.name "a").Spelled ['a'] := .name (by decide) (by simp)
    have hb : (Token.name "b").Spelled ['b'] := .name (by decide) (by simp)
    have hspells : Spells [.name "a", .dot, .name "b"] ['a', '.', 'b'] :=
      .token ha (.token .dot (.token hb (.nil (by simp))))
    exact (parse_eq_ok_iff hholds).mpr
      ⟨_, hspells, .ofPath (by simp [IsReserved]) (.member "b" .nil), by simp [Token.IsShort]⟩

theorem getValue_flatOverNested :
    (flatOverNested.getValue "a.b" []).1.result =
      .ok (some ⟨.int 5, some ⟨"nested.json", none⟩⟩) := by
  have hflat : follow (.object [(.str "a", .int 7)]) [.key "a", .key "b"] = .ok .null := rfl
  have hnested : follow (.object [(.str "a", .ofFields [("b", .int 5)])])
      [.key "a", .key "b"] = .ok (.int 5) := rfl
  rw [result_getValue isPath_member]
  exact firstValue_of_follow isPath_member
    (@List.forall_mem_singleton Source _ ⟨_, some ⟨"flat.json", none⟩⟩ |>.mpr hflat) hnested rfl

theorem follow_values_flatOverNested :
    follow (.object flatOverNested.values) [.key "a", .key "b"] = .ok .null := by
  simp [flatOverNested, values, mergedEntries, currentSources, Source.withEnvironment,
    Environment.substituteEntries, Environment.substitute?, Value.ofFields, Value.merge,
    Value.insert, Value.override, Value.find?, Value.same, follow_object, Value.lookup,
    Value.isText, Segment.asKey]
  rfl

/-- The number shadows what the object under it holds. -/
theorem getValue_differs_flatOverNested :
    ∃ lower k higher, [nestedHolder, flatHolder] = lower ++ k :: higher ∧
      k.location = some ⟨"nested.json", none⟩ ∧
      ∃ j ∈ higher, Value.Shadows [.key "a", .key "b"] (.object (j.shown []))
        (.object (k.shown [])) := by
  have hof : ofHolders [nestedHolder, flatHolder] .default .proceed = .ok flatOverNested := rfl
  have hk : ∀ h ∈ [nestedHolder, flatHolder], h.Keyed := by
    simp [nestedHolder, flatHolder, ValuesHolder.Keyed, Value.Keyed, Value.ofFields,
      Value.KeyedEntries, Value.lookup]
  obtain ⟨lower, k, higher, hcut, hloc, -, -, hs⟩ :=
    (getValue_differs_by_shadowing hof hk isPath_member).2 _ getValue_flatOverNested
      follow_values_flatOverNested
  exact ⟨lower, k, higher, hcut, hloc.symm, hs⟩

end Resolver

end ApiSuite
