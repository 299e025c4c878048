import ApiSuite.Values.Resolver

/-!
# The memo of a resolver

Six operations of a resolver share one memo. It is **transparent**: whatever has been asked
before, an operation answers what it would answer first
(`ApiSuite.Resolver.performAll_transparent`). The invariant that carries this,
`ApiSuite.Resolver.Faithful`, says of each finding in the memo that it is what a computation
from nothing would find.

What a memo does change is the log. The operations are taken apart into the located lookups
they make (`ApiSuite.Resolver.lookups`), and a lookup of a key that has been found out says
nothing more.
-/

namespace ApiSuite

/-! ### What is asked of a resolver -/

/-- What can be asked of a resolver. -/
inductive Operation where
  | getValue (expression : String)
  | resolve (expression : String)
  | getValues
  | substitute (text : String)
  | checkRequired
  | resolveAll (expressions extra : List String)

/-- Whether an operation looks expressions up, and does nothing else. -/
def Operation.locates : Operation → Bool
  | .getValues | .substitute _ => false
  | _ => true

/-- What an operation answers. -/
inductive Answer where
  | located (found : Option LocatedValue)
  | value (found : Option Value)
  | entries (entries : List (Value × Value))
  | text (text : String)
  | names (names : List String)
  | resolution (resolution : Resolution)

namespace Resolver

/-- An operation as a session. -/
def perform (r : Resolver) : Operation → Session Answer
  | .getValue e => do pure (.located (← r.getValue e))
  | .resolve e => do pure (.value (← r.resolve e))
  | .getValues => do pure (.entries (← r.getValues))
  | .substitute text => do pure (.text (← r.interpolate text))
  | .checkRequired => do pure (.names (← r.checkRequired))
  | .resolveAll es extra => do pure (.resolution (← r.resolveAll es extra))

/-- Operations one after another; one that fails does not keep the next from being asked. -/
def performAll (r : Resolver) : List Operation → Memo → List (Traced Answer)
  | [], _ => []
  | op :: ops, memo => (r.perform op memo).1 :: r.performAll ops (r.perform op memo).2

/-! ### The invariant -/

/-- A finding is what a computation from nothing would find. -/
def Bears (r : Resolver) : Finding → Prop
  | .key key found => (findValue r.options r.currentSources key).result = .ok found
  | .sources found => found = r.currentSources
  | .merged found => found = r.values

/-- A memo in which every finding is what a computation from nothing would find. -/
def Faithful (r : Resolver) (memo : Memo) : Prop := ∀ f ∈ memo, r.Bears f

/-- The memo of a new resolver. -/
theorem faithful_nil (r : Resolver) : r.Faithful [] := by
  intro f hf
  cases hf

/-- A session that answers what it would answer from nothing, keeps the memo faithful, and
forgets nothing. -/
structure Transparent (r : Resolver) {α : Type} (x : Session α) : Prop where
  answers : ∀ memo, r.Faithful memo → (x memo).1.result = (x []).1.result
  keeps : ∀ memo, r.Faithful memo → r.Faithful (x memo).2
  remembers : ∀ memo, memo <:+ (x memo).2

section Transparent

variable {r : Resolver} {α β : Type}

theorem transparent_pure (a : α) : r.Transparent (pure a : Session α) where
  answers _ _ := rfl
  keeps _ h := h
  remembers _ := List.suffix_rfl

theorem transparent_lift (t : Traced α) : r.Transparent (Session.lift t) where
  answers _ _ := rfl
  keeps _ h := h
  remembers _ := List.suffix_rfl

/-- **Transparency passes through a sequence**: the second session starts on a memo that the
first has kept faithful. -/
theorem Transparent.bind {x : Session α} {f : α → Session β} (hx : r.Transparent x)
    (hf : ∀ a, r.Transparent (f a)) : r.Transparent (x >>= f) where
  answers memo hm := by
    have hnil := faithful_nil r
    rcases h : (x []).1.result with e | a
    · rw [Session.bind_of_error h, Session.bind_of_error ((hx.answers memo hm).trans h)]
    · -- the second session starts on two different memos, both of them faithful
      rw [Session.bind_of_ok h, Session.bind_of_ok ((hx.answers memo hm).trans h)]
      exact ((hf a).answers _ (hx.keeps memo hm)).trans
        ((hf a).answers _ (hx.keeps [] hnil)).symm
  keeps memo hm := by
    rcases h : (x memo).1.result with e | a
    · rw [Session.bind_of_error h]
      exact hx.keeps memo hm
    · rw [Session.bind_of_ok h]
      exact (hf a).keeps _ (hx.keeps memo hm)
  remembers memo := by
    rcases h : (x memo).1.result with e | a
    · rw [Session.bind_of_error h]
      exact hx.remembers memo
    · rw [Session.bind_of_ok h]
      exact (hx.remembers memo).trans ((hf a).remembers _)

/-- From nothing, finding out is computing. -/
theorem once_nil {known? : Finding → Option α} {keep : α → Finding} {compute : Session α} :
    (Session.once known? keep compute []).1 = (compute []).1 := by
  rcases Session.once_cases known? keep compute [] with ⟨f, hf, -⟩ | ⟨new, honce, -⟩
  · cases hf
  · rw [honce]

/-- **A cache is transparent** if a finding that bears up is what is computed, and what is
computed is kept as a finding that bears up. -/
theorem Transparent.once {known? : Finding → Option α} {keep : α → Finding}
    {compute : Session α} (hc : r.Transparent compute)
    (hknown : ∀ f a, r.Bears f → known? f = some a → (compute []).1.result = .ok a)
    (hkeep : ∀ a, (compute []).1.result = .ok a → r.Bears (keep a)) :
    r.Transparent (Session.once known? keep compute) where
  answers memo hm := by
    rw [once_nil]
    rcases Session.once_cases known? keep compute memo with
      ⟨f, hf, a, hfa, honce⟩ | ⟨new, honce, -⟩
    · rw [honce]
      exact (hknown f a (hm f hf) hfa).symm
    · rw [honce]
      exact hc.answers memo hm
  keeps memo hm := by
    rcases Session.once_cases known? keep compute memo with
      ⟨f, -, a, -, honce⟩ | ⟨new, honce, hnew⟩
    · rw [honce]
      exact hm
    · rw [honce]
      intro f hf
      rcases List.mem_append.mp hf with hf | hf
      · -- what was computed with this memo is what is computed from nothing
        obtain ⟨a, ha, rfl⟩ := hnew f hf
        exact hkeep a ((hc.answers memo hm).symm.trans ha)
      · exact hc.keeps memo hm f hf
  remembers memo := by
    rcases Session.once_cases known? keep compute memo with
      ⟨f, -, a, -, honce⟩ | ⟨new, honce, -⟩
    · exact ⟨[], by simp [honce]⟩
    · rw [honce]
      exact (hc.remembers memo).trans (List.suffix_append _ _)

end Transparent

/-! ### Every operation is transparent -/

section Operations

variable (r : Resolver)

theorem transparent_useSources : r.Transparent r.useSources := by
  refine Transparent.once (transparent_pure _) ?_ ?_
  · intro f a hf ha
    cases f with
    | sources found =>
      cases ha
      exact congrArg Except.ok hf.symm
    | key | merged => cases ha
  · intro a ha
    cases ha
    rfl

/-- A lookup finds the value of its key: the key is what the expression is remembered by, and
what is looked for is the key with its references addressed. -/
theorem transparent_getValue (e : String) : r.Transparent (r.getValue e) := by
  refine Transparent.once ((transparent_useSources r).bind fun _ => transparent_lift _) ?_ ?_
  · intro f a hf ha
    cases f with
    | key key found =>
      by_cases hk : key = lookupKey e
      · subst hk
        have hfound : found = a := by simpa [Finding.key?] using ha
        subst hfound
        exact hf
      · simp [Finding.key?, hk] at ha
    | sources | merged => cases ha
  · intro a ha
    exact ha

/-- From nothing, a key is looked up among the sources. -/
theorem getValue_nil (e : String) :
    (r.getValue e []).1.result =
      (findValue r.options r.currentSources (lookupKey e)).result := by
  exact congrArg Traced.result once_nil

theorem transparent_getValues : r.Transparent r.getValues := by
  refine Transparent.once ((transparent_useSources r).bind fun _ => transparent_pure _) ?_ ?_
  · intro f a hf ha
    cases f with
    | merged found =>
      cases ha
      exact congrArg Except.ok hf.symm
    | key | sources => cases ha
  · intro a ha
    cases ha
    rfl

theorem transparent_missing (names : List String) : r.Transparent (r.missing names) := by
  induction names with
  | nil => exact transparent_pure _
  | cons name names ih =>
    exact (transparent_getValue r name).bind fun _ => ih.bind fun _ => transparent_pure _

theorem transparent_resolveRest (required : List String) (soFar : Resolution)
    (es : List String) : r.Transparent (r.resolveRest required soFar es) := by
  induction es generalizing soFar with
  | nil => exact transparent_pure _
  | cons e es ih =>
    refine (transparent_getValue r e).bind fun found => ?_
    rcases found with _ | v
    · dsimp only
      split
      · refine (transparent_lift _).bind fun _ => ?_
        split
        · exact transparent_pure _
        · exact ih _
      · exact ih _
    · exact ih _

/-- **Every operation is transparent.** -/
theorem transparent_perform (op : Operation) : r.Transparent (r.perform op) := by
  cases op with
  | getValue e => exact (transparent_getValue r e).bind fun _ => transparent_pure _
  | resolve e =>
    exact ((transparent_getValue r e).bind fun _ => transparent_pure _).bind
      fun _ => transparent_pure _
  | getValues => exact (transparent_getValues r).bind fun _ => transparent_pure _
  | substitute text =>
    exact ((transparent_getValues r).bind fun _ => transparent_lift _).bind
      fun _ => transparent_pure _
  | checkRequired => exact (transparent_missing r _).bind fun _ => transparent_pure _
  | resolveAll es extra =>
    exact (transparent_resolveRest r _ _ _).bind fun _ => transparent_pure _

/-- A run on a faithful memo answers each operation as from nothing. -/
theorem results_performAll (ops : List Operation) {memo : Memo} (hm : r.Faithful memo) :
    (r.performAll ops memo).map (·.result) = ops.map fun op => (r.perform op []).1.result := by
  induction ops generalizing memo with
  | nil => rfl
  | cons op ops ih =>
    have ht := transparent_perform r op
    simp only [performAll, List.map_cons, ht.answers memo hm, ih (ht.keeps memo hm)]

end Operations

/-! ### The lookups that operations make -/

/-- A located lookup: the expression looked up, and the memo it is looked up with. -/
structure Lookup where
  expression : String
  memo : Memo

namespace Lookup

/-- What it is remembered by. -/
def key (l : Lookup) : String := lookupKey l.expression

/-- What comes of it. -/
def outcome (r : Resolver) (l : Lookup) : Traced (Option LocatedValue) :=
  (r.getValue l.expression l.memo).1

/-- The memo it leaves. -/
def after (r : Resolver) (l : Lookup) : Memo := (r.getValue l.expression l.memo).2

/-- It does not end in a fault: there is a value, or there is none. -/
def Completes (r : Resolver) (l : Lookup) : Prop := ∃ found, (l.outcome r).result = .ok found

end Lookup

/-- The lookups of expressions one after another, up to one that fails and up to one that is
the `last` to be made. -/
def trail (r : Resolver) (last : String → Option LocatedValue → Bool) :
    List String → Memo → List Lookup
  | [], _ => []
  | e :: es, memo =>
    let l : Lookup := ⟨e, memo⟩
    match (l.outcome r).result with
    | .ok found => if last e found then [l] else l :: r.trail last es (l.after r)
    | .error _ => [l]

/-- Whether a batch ends with an expression: it has no value, a required one, and the policy
is to stop. -/
def stopsAt (r : Resolver) (required : List String) (e : String)
    (found : Option LocatedValue) : Bool :=
  found.isNone && violates required e && r.policy = .stop

/-- The lookups that an operation makes. -/
def lookups (r : Resolver) : Operation → Memo → List Lookup
  | .getValue e, memo | .resolve e, memo => [⟨e, memo⟩]
  | .checkRequired, memo => r.trail (fun _ _ => false) r.required memo
  | .resolveAll es extra, memo => r.trail (r.stopsAt (r.required ++ extra)) es memo
  | .getValues, _ | .substitute _, _ => []

/-- The lookups that operations make one after another. -/
def history (r : Resolver) : List Operation → Memo → List Lookup
  | [], _ => []
  | op :: ops, memo => r.lookups op memo ++ r.history ops (r.perform op memo).2

/-- The entries of a log that tell of an expression without a value. -/
def unresolvedEntries (log : List Log.Entry) : List Log.Entry :=
  log.filter fun entry => entry.event == "expression_unresolved"

/-! ### What a lookup leaves behind -/

/-- Lookups that lead from one memo to another: none is made with less than the ones before
it have found out. -/
def Ascends (r : Resolver) : Memo → List Lookup → Memo → Prop
  | memo, [], memo' => memo <:+ memo'
  | memo, l :: ls, memo' => memo <:+ l.memo ∧ r.Ascends (l.after r) ls memo'

section Ascends

variable {r : Resolver} {memo memo' : Memo} {ls ls' : List Lookup}

theorem Ascends.of_suffix (hm : memo <:+ memo') {ls : List Lookup} {last : Memo}
    (h : r.Ascends memo' ls last) : r.Ascends memo ls last := by
  cases ls with
  | nil => exact hm.trans h
  | cons l ls => exact ⟨hm.trans h.1, h.2⟩

theorem Ascends.append {last : Memo} (h : r.Ascends memo ls memo')
    (h' : r.Ascends memo' ls' last) : r.Ascends memo (ls ++ ls') last := by
  induction ls generalizing memo with
  | nil => exact h'.of_suffix h
  | cons l ls ih => exact ⟨h.1, ih h.2⟩

theorem Ascends.mem (h : r.Ascends memo ls memo') {l : Lookup} (hl : l ∈ ls) :
    memo <:+ l.memo := by
  induction ls generalizing memo with
  | nil => cases hl
  | cons l' ls ih =>
    rcases List.mem_cons.mp hl with rfl | hl
    · exact h.1
    · exact (h.1.trans ((transparent_getValue r _).remembers _)).trans (ih h.2 hl)

/-- Each lookup is made with all that the ones before it have found out. -/
theorem Ascends.pairwise (h : r.Ascends memo ls memo') :
    ls.Pairwise fun l l' => l.after r <:+ l'.memo := by
  induction ls generalizing memo with
  | nil => exact List.Pairwise.nil
  | cons l ls ih => exact List.pairwise_cons.mpr ⟨fun l' hl' => h.2.mem hl', ih h.2⟩

end Ascends

/-- What has been found out of a key stays found out. -/
theorem found_of_suffix {memo memo' : Memo} (h : memo <:+ memo') {key : String}
    (hk : (memo.findSome? (Finding.key? key)).isSome) :
    (memo'.findSome? (Finding.key? key)).isSome := by
  obtain ⟨new, rfl⟩ := h
  rw [List.findSome?_append, Option.isSome_or, hk, Bool.or_true]

/-- A lookup that completes leaves its key found out. -/
theorem Lookup.Completes.found {r : Resolver} {l : Lookup} (h : l.Completes r) :
    ((l.after r).findSome? (Finding.key? l.key)).isSome := by
  obtain ⟨found, hf⟩ := h
  have hk : Finding.key? l.key (.key l.key found) = some found := by simp [Finding.key?]
  exact Option.isSome_of_eq_some (Session.findSome?_once hk hf)

theorem getValue_of_found {r : Resolver} {e : String} {memo : Memo}
    {found : Option LocatedValue}
    (h : memo.findSome? (Finding.key? (lookupKey e)) = some found) :
    r.getValue e memo = (pure found, memo) := by
  unfold getValue
  exact Session.once_of_some h

/-- A lookup of a key that has been found out says nothing. -/
theorem Lookup.log_eq_nil {r : Resolver} {l : Lookup}
    (h : (l.memo.findSome? (Finding.key? l.key)).isSome) : (l.outcome r).log = [] := by
  obtain ⟨found, hf⟩ := Option.isSome_iff_exists.mp h
  rw [Lookup.outcome, getValue_of_found hf, Traced.log_pure]

/-- **Only the first lookup of a key to complete, or one before it, says anything.** -/
theorem Ascends.silent {r : Resolver} {memo memo' : Memo} {ls : List Lookup}
    (h : r.Ascends memo ls memo') :
    ls.Pairwise fun l l' => l'.key = l.key → l.Completes r → (l'.outcome r).log = [] := by
  refine h.pairwise.imp ?_
  intro l l' hm hkey hl
  refine Lookup.log_eq_nil ?_
  rw [hkey]
  exact found_of_suffix hm hl.found

/-! ### Operations make the lookups ascribed to them -/

/-- A session on a memo makes lookups: it goes on from what they find out, and has nothing to
say of expressions without a value but what they say. -/
structure Makes (r : Resolver) {α : Type} (x : Session α) (memo : Memo) (ls : List Lookup) :
    Prop where
  ascends : r.Ascends memo ls (x memo).2
  log : unresolvedEntries (x memo).1.log =
    ls.flatMap fun l => unresolvedEntries (l.outcome r).log

section Makes

variable {r : Resolver} {α β : Type} {x : Session α} {f : α → Session β} {memo : Memo}
  {ls ls' : List Lookup}

theorem makes_pure (a : α) : r.Makes (pure a : Session α) memo [] := ⟨List.suffix_rfl, rfl⟩

theorem makes_missingEntry (name : String) :
    r.Makes (Session.lift (Traced.tell (missingEntry name))) memo [] :=
  ⟨List.suffix_rfl, rfl⟩

theorem makes_getValue (e : String) : r.Makes (r.getValue e) memo [⟨e, memo⟩] where
  ascends := ⟨List.suffix_rfl, List.suffix_rfl⟩
  log := (List.append_nil _).symm

theorem Makes.bind_of_error {e : Fault} (hx : r.Makes x memo ls)
    (h : (x memo).1.result = .error e) : r.Makes (x >>= f) memo ls where
  ascends := by
    rw [Session.bind_of_error h]
    exact hx.ascends
  log := by
    rw [Session.bind_of_error h]
    exact hx.log

theorem Makes.bind_of_ok {a : α} (hx : r.Makes x memo ls) (h : (x memo).1.result = .ok a)
    (hf : r.Makes (f a) (x memo).2 ls') : r.Makes (x >>= f) memo (ls ++ ls') where
  ascends := by
    rw [Session.bind_of_ok h]
    exact hx.ascends.append hf.ascends
  log := by
    rw [Session.bind_of_ok h, List.flatMap_append, ← hx.log, ← hf.log]
    exact List.filter_append _ _

/-- What a session goes on to work out without lookups does not count. -/
theorem Makes.bind (hx : r.Makes x memo ls) (hf : ∀ a memo, r.Makes (f a) memo []) :
    r.Makes (x >>= f) memo ls := by
  rcases h : (x memo).1.result with e | a
  · exact hx.bind_of_error h
  · have hb := hx.bind_of_ok h (hf a _)
    rwa [List.append_nil] at hb

theorem makes_missing (names : List String) :
    r.Makes (r.missing names) memo (r.trail (fun _ _ => false) names memo) := by
  induction names generalizing memo with
  | nil => exact makes_pure _
  | cons name names ih =>
    have hget := @makes_getValue r memo name
    rw [trail]
    rcases h : (r.getValue name memo).1.result with e | found
    · simp only [Lookup.outcome, h]
      exact hget.bind_of_error h
    · simp only [Lookup.outcome, h]
      exact hget.bind_of_ok h (ih.bind fun _ _ => makes_pure _)

theorem makes_resolveRest (required : List String) (soFar : Resolution) (es : List String) :
    r.Makes (r.resolveRest required soFar es) memo
      (r.trail (r.stopsAt required) es memo) := by
  induction es generalizing soFar memo with
  | nil => exact makes_pure _
  | cons e es ih =>
    have hget := @makes_getValue r memo e
    rw [trail]
    rcases h : (r.getValue e memo).1.result with fault | found
    · simp only [Lookup.outcome, h]
      exact hget.bind_of_error h
    · simp only [Lookup.outcome, h]
      rcases found with _ | v
      · by_cases hv : violates required e
        · -- a violation: its own entry is no lookup's, and the policy says whether to go on
          by_cases hp : r.policy = .stop
          · rw [if_pos (by simp [stopsAt, hv, hp])]
            refine hget.bind_of_ok h ?_
            dsimp only
            rw [if_pos hv, if_pos hp]
            exact (makes_missingEntry _).bind fun _ _ => makes_pure _
          · rw [if_neg (by simp [stopsAt, hp])]
            refine hget.bind_of_ok h ?_
            dsimp only
            rw [if_pos hv, if_neg hp]
            exact (makes_missingEntry _).bind_of_ok rfl (ih _)
        · rw [if_neg (by simp [stopsAt, hv])]
          refine hget.bind_of_ok h ?_
          dsimp only
          rw [if_neg hv]
          exact ih _
      · exact hget.bind_of_ok h (ih _)

/-- **An operation that looks expressions up makes its lookups.** -/
theorem makes_lookups {op : Operation} (h : op.locates) :
    r.Makes (r.perform op) memo (r.lookups op memo) := by
  cases op with
  | getValue e => exact (makes_getValue e).bind fun _ _ => makes_pure _
  | resolve e =>
    exact ((makes_getValue e).bind fun _ _ => makes_pure _).bind fun _ _ => makes_pure _
  | getValues => cases h
  | substitute text => cases h
  | checkRequired => exact (makes_missing _).bind fun _ _ => makes_pure _
  | resolveAll es extra => exact (makes_resolveRest _ _ _).bind fun _ _ => makes_pure _

end Makes

theorem ascends_lookups (r : Resolver) (op : Operation) (memo : Memo) :
    r.Ascends memo (r.lookups op memo) (r.perform op memo).2 := by
  have hm := (transparent_perform r op).remembers memo
  cases op with
  | getValues => exact hm
  | substitute text => exact hm
  | getValue e => exact (makes_lookups rfl).ascends
  | resolve e => exact (makes_lookups rfl).ascends
  | checkRequired => exact (makes_lookups rfl).ascends
  | resolveAll es extra => exact (makes_lookups rfl).ascends

theorem ascends_history (r : Resolver) (ops : List Operation) (memo : Memo) :
    ∃ memo', r.Ascends memo (r.history ops memo) memo' := by
  induction ops generalizing memo with
  | nil => exact ⟨memo, List.suffix_rfl⟩
  | cons op ops ih =>
    obtain ⟨memo', h⟩ := ih (r.perform op memo).2
    exact ⟨memo', (ascends_lookups r op memo).append h⟩

/-- **The memo of a resolver is transparent.** Whatever is asked of a new resolver, in
whatever order and however often, each operation answers what it would answer first. What the
operations that look expressions up say of expressions without a value is what their lookups
say; and once a lookup of a key has completed, with a value or without, no later lookup of
that key says anything. -/
theorem performAll_transparent (r : Resolver) (ops : List Operation) :
    (r.performAll ops []).map (·.result) = ops.map (fun op => (r.perform op []).1.result) ∧
      (∀ op memo, op.locates → unresolvedEntries (r.perform op memo).1.log =
        (r.lookups op memo).flatMap fun l => unresolvedEntries (l.outcome r).log) ∧
      (r.history ops []).Pairwise fun l l' =>
        l'.key = l.key → l.Completes r → (l'.outcome r).log = [] := by
  refine ⟨results_performAll r ops (faithful_nil r), ?_, ?_⟩
  · intro op memo h
    exact (makes_lookups h).log
  · obtain ⟨memo', h⟩ := ascends_history r ops []
    exact h.silent

end Resolver

end ApiSuite
