import ApiSuite.Proofs.Values.Hit

/-!
# What a batch of expressions comes to

A batch is gone through expression by expression, and each is entered into the resolution made so
far (`ApiSuite.Resolution.after`): with its value if its lookup finds one, among those without a
value otherwise. Under the policy to proceed this is all there is to it. The policy to stop goes the
same way up to the first required name that is missing, and no further.

The memo has no part in this. Every lookup of a batch is answered as it would be on a new memo, so
that one step of a batch can be stated without the memo that the steps before it have left
(`ApiSuite.Resolver.result_resolveRest_cons`). What each step preserves is
`ApiSuite.Resolver.Accounts`, that the resolution accounts for the expressions gone through so far;
from it `ApiSuite.Resolver.resolveAll_policies` has what a whole batch comes to under either policy.
-/

namespace ApiSuite

open Expression

/-! ### One expression -/

/-- The resolution with one more expression, of which this was found: its value is kept, or it is
one more without a value, and a required name that is missing is listed. -/
def Resolution.after (required : List String) (soFar : Resolution) (e : String) :
    Option LocatedValue → Resolution
  | some v => { soFar with values := Schema.insertField e v.value soFar.values }
  | none =>
    { soFar with
      unresolved := soFar.unresolved ++ [e]
      missingRequired :=
        if Resolver.violates required e then soFar.missingRequired ++ [stripWrapper e]
        else soFar.missingRequired }

/-- The resolution of a batch that was broken off. -/
def Resolution.abort (res : Resolution) : Resolution := { res with aborted := true }

namespace Resolver

/-- The resolver under another policy. -/
def withPolicy (r : Resolver) (policy : RequiredPolicy) : Resolver := { r with policy }

/-- What the lookup of an expression comes to, on a new memo. -/
def answer (r : Resolver) (e : String) : Except Fault (Option LocatedValue) :=
  (r.getValue e []).1.result

/-- Whether the lookup of an expression finds something. -/
def finds (r : Resolver) (e : String) : Bool :=
  match r.answer e with
  | .ok (some _) => true
  | _ => false

/-- An expression of a batch is a required name that is missing: it has no value, it is no
reference, and what it holds is among the required names. -/
def IsMissing (r : Resolver) (required : List String) (e : String) : Prop :=
  r.answer e = .ok none ∧ violates required e

/-- What a batch comes to under a policy. -/
def batch (r : Resolver) (policy : RequiredPolicy) (es extra : List String) (memo : Memo) :
    Except Fault Resolution :=
  ((r.withPolicy policy).resolveAll es extra memo).1.result

section Step

variable {r : Resolver} {required es : List String} {e : String} {memo : Memo}
  {soFar : Resolution} {policy : RequiredPolicy}

theorem Faithful.withPolicy (hm : r.Faithful memo) (policy : RequiredPolicy) :
    (r.withPolicy policy).Faithful memo := by
  intro f hf
  have hbears := hm f hf
  cases f <;> exact hbears

theorem finds_of_answer {found : Option LocatedValue} (h : r.answer e = .ok found) :
    r.finds e = found.isSome := by
  rw [finds, h]
  cases found <;> rfl

theorem stopsAt_iff {found : Option LocatedValue} :
    r.stopsAt required e found ↔ found = none ∧ violates required e ∧ r.policy = .stop := by
  simp [stopsAt, and_assoc]

/-- **One step of a batch**: the expression is looked up and entered, and the batch goes on unless
this is where it stops. -/
theorem result_resolveRest_cons (hm : r.Faithful memo) :
    (r.resolveRest required soFar (e :: es) memo).1.result =
      (r.answer e).bind fun found =>
        if r.stopsAt required e found then .ok (soFar.after required e found).abort
        else (r.resolveRest required (soFar.after required e found) es []).1.result := by
  have hanswer : (r.getValue e memo).1.result = r.answer e :=
    (transparent_getValue r e).answers memo hm
  -- the rest of the batch is answered on the memo that the lookup leaves as on a new one
  have hkept := (transparent_getValue r e).keeps memo hm
  have hrest := fun next => (transparent_resolveRest r required next es).answers _ hkept
  rw [resolveRest]
  rcases h : r.answer e with fault | _ | v
  · rw [Session.bind_of_error (hanswer.trans h)]
    rfl
  · rw [Session.bind_of_ok (hanswer.trans h)]
    by_cases hv : violates required e
    · by_cases hp : r.policy = .stop
      · have hstops : r.stopsAt required e none := stopsAt_iff.mpr ⟨rfl, hv, hp⟩
        simp only [Except.bind, hstops, Resolution.after, hv, hp]
        rfl
      · simp only [Except.bind, Resolution.after, hv, hp, stopsAt]
        exact hrest _
    · simp only [Except.bind, Resolution.after, hv, stopsAt]
      exact hrest _
  · rw [Session.bind_of_ok (hanswer.trans h)]
    exact hrest _

end Step

/-! ### Going on to the end -/

/-- What comes of a batch that is gone through to its end. -/
def account (r : Resolver) (required : List String) (soFar : Resolution) (es : List String) :
    Except Fault Resolution :=
  es.foldlM (fun soFar e => (r.answer e).map (soFar.after required e)) soFar

section Account

variable {r : Resolver} {required es : List String} {e : String} {memo : Memo}
  {soFar res : Resolution}

theorem account_cons :
    r.account required soFar (e :: es) =
      (r.answer e).bind fun found => r.account required (soFar.after required e found) es := by
  rw [account, List.foldlM_cons]
  cases r.answer e <;> rfl

/-- A batch that has no place to stop at is gone through to its end. -/
theorem result_resolveRest_of_not_stopsAt (hm : r.Faithful memo)
    (hgoes : ∀ e ∈ es, ∀ found, r.answer e = .ok found → ¬r.stopsAt required e found) :
    (r.resolveRest required soFar es memo).1.result = r.account required soFar es := by
  induction es generalizing soFar memo with
  | nil => rfl
  | cons e es ih =>
    obtain ⟨hhead, htail⟩ := List.forall_mem_cons.mp hgoes
    rw [result_resolveRest_cons hm, account_cons]
    cases h : r.answer e with
    | error fault => rfl
    | ok found =>
      show (if _ then _ else _) = r.account required (soFar.after required e found) es
      rw [if_neg (hhead found h)]
      exact ih (faithful_nil r) htail

/-- A batch stops at the first expression that it can stop at. -/
theorem result_resolveRest_of_stopsAt (hm : r.Faithful memo) {before after : List String}
    {found : Option LocatedValue}
    (hgoes : ∀ e ∈ before, ∀ found, r.answer e = .ok found → ¬r.stopsAt required e found)
    (he : r.answer e = .ok found) (hstops : r.stopsAt required e found) :
    (r.resolveRest required soFar (before ++ e :: after) memo).1.result =
      (r.account required soFar (before ++ [e])).map Resolution.abort := by
  induction before generalizing soFar memo with
  | nil =>
    rw [List.nil_append, List.nil_append, result_resolveRest_cons hm, account_cons, he]
    exact if_pos hstops
  | cons e' before ih =>
    obtain ⟨hhead, htail⟩ := List.forall_mem_cons.mp hgoes
    rw [List.cons_append, List.cons_append, result_resolveRest_cons hm, account_cons]
    cases h : r.answer e' with
    | error fault => rfl
    | ok found' =>
      show (if _ then _ else _) = Except.map _ (r.account required _ (before ++ [e]))
      rw [if_neg (hhead found' h)]
      exact ih (faithful_nil r) htail

/-- The end is reached exactly if every lookup comes to an end. -/
theorem account_ok_iff :
    (∃ res, r.account required soFar es = .ok res) ↔
      ∀ e ∈ es, ∃ found, r.answer e = .ok found := by
  induction es generalizing soFar with
  | nil => exact ⟨fun _ => by simp, fun _ => ⟨soFar, rfl⟩⟩
  | cons e es ih =>
    rw [account_cons, List.forall_mem_cons]
    cases h : r.answer e with
    | error fault => simp [Except.bind]
    | ok found =>
      show (∃ res, r.account required (soFar.after required e found) es = .ok res) ↔ _
      rw [ih]
      exact ⟨fun hall => ⟨⟨found, rfl⟩, hall⟩, fun hall => hall.2⟩

/-- What keeps a batch from its end is the fault of the first lookup that fails. -/
theorem account_error {fault : Fault} (h : r.account required soFar es = .error fault) :
    ∃ before e after, es = before ++ e :: after ∧ r.answer e = .error fault ∧
      ∀ e' ∈ before, ∃ found, r.answer e' = .ok found := by
  induction es generalizing soFar with
  | nil => cases h
  | cons e es ih =>
    rw [account_cons] at h
    cases he : r.answer e with
    | error fault' =>
      rw [he] at h
      cases h
      exact ⟨[], e, es, rfl, he, by simp⟩
    | ok found =>
      rw [he] at h
      obtain ⟨before, e', after, rfl, he', hbefore⟩ := ih h
      exact ⟨e :: before, e', after, rfl, he', List.forall_mem_cons.mpr ⟨⟨found, he⟩, hbefore⟩⟩

end Account

/-! ### What a resolution accounts for -/

/-- A resolution accounts for some expressions, every one of which has been looked up. -/
structure Accounts (r : Resolver) (required es : List String) (res : Resolution) : Prop where
  /-- The keys of the values are the expressions with a value, each once, where it first occurs. -/
  keys : res.values.map (·.1) = distinctNames (es.filter r.finds)
  /-- Under each key is what its lookup finds. -/
  values : ∀ e v, (e, v) ∈ res.values → ∃ place, r.answer e = .ok (some ⟨v, place⟩)
  /-- Unresolved are those that are looked up in vain, in order and with repetitions. -/
  unresolved : res.unresolved = es.filter r.lacks
  /-- Missing are what those of them hold that are no reference and hold a required name. -/
  missing : res.missingRequired =
    (res.unresolved.filter fun e =>
      required.contains (stripWrapper e) && !Template.isReference e).map stripWrapper
  complete : res.aborted = false

section Accounts

variable {r : Resolver} {required es done : List String} {e : String} {memo : Memo}
  {soFar res : Resolution}

theorem distinctNames_concat (names : List String) (name : String) :
    distinctNames (names ++ [name]) =
      if (distinctNames names).contains name then distinctNames names
      else distinctNames names ++ [name] := by
  rw [distinctNames, List.foldl_append]
  rfl

theorem mem_insertField {α : Type} {key k : String} {a b : α} {fields : List (String × α)}
    (h : (k, b) ∈ Schema.insertField key a fields) : k = key ∧ b = a ∨ (k, b) ∈ fields := by
  induction fields with
  | nil =>
    rw [Schema.insertField, List.mem_singleton] at h
    cases h
    exact .inl ⟨rfl, rfl⟩
  | cons field fields ih =>
    obtain ⟨k', b'⟩ := field
    rw [Schema.insertField] at h
    split at h
    · rename_i hk
      rcases List.mem_cons.mp h with heq | hmem
      · cases heq
        exact .inl ⟨eq_of_beq hk, rfl⟩
      · exact .inr (List.mem_cons_of_mem _ hmem)
    · rcases List.mem_cons.mp h with heq | hmem
      · exact .inr (heq ▸ List.mem_cons_self)
      · exact (ih hmem).imp id (List.mem_cons_of_mem _)

/-- **What one step preserves**: the resolution with one more expression accounts for that one,
too. -/
theorem Accounts.after {found : Option LocatedValue} (h : r.Accounts required done soFar)
    (he : r.answer e = .ok found) :
    r.Accounts required (done ++ [e]) (soFar.after required e found) := by
  have hfinds := finds_of_answer he
  have hlacks : r.lacks e = found.isNone := lacks_of_result he
  cases found with
  | some v =>
    refine { keys := ?_, values := ?_, unresolved := ?_, missing := h.missing,
             complete := h.complete }
    · rw [List.filter_append, List.filter_cons_of_pos (by simp [hfinds]), List.filter_nil,
        distinctNames_concat, ← h.keys]
      exact Schema.keys_insertField e v.value soFar.values
    · intro e' w hmem
      rcases mem_insertField hmem with ⟨rfl, rfl⟩ | hmem
      · exact ⟨v.location, he⟩
      · exact h.values e' w hmem
    · rw [List.filter_append, List.filter_cons_of_neg (by simp [hlacks]), List.filter_nil,
        List.append_nil]
      exact h.unresolved
  | none =>
    refine { keys := ?_, values := h.values, unresolved := ?_, missing := ?_,
             complete := h.complete }
    · rw [List.filter_append, List.filter_cons_of_neg (by simp [hfinds]), List.filter_nil,
        List.append_nil]
      exact h.keys
    · rw [List.filter_append, List.filter_cons_of_pos (by simp [hlacks]), List.filter_nil,
        ← h.unresolved]
      rfl
    · show (if violates required e then _ else _) = ((soFar.unresolved ++ [e]).filter _).map _
      rw [List.filter_append, List.map_append, ← h.missing]
      change (if required.contains (stripWrapper e) && !Template.isReference e then _ else _) = _
      rw [List.filter_cons]
      split
      · rfl
      · rw [List.filter_nil, List.map_nil, List.append_nil]

/-- What a whole run preserves. -/
theorem Accounts.account (h : r.Accounts required done soFar)
    (hres : r.account required soFar es = .ok res) : r.Accounts required (done ++ es) res := by
  induction es generalizing done soFar with
  | nil =>
    cases hres
    rwa [List.append_nil]
  | cons e es ih =>
    rw [account_cons] at hres
    cases he : r.answer e with
    | error fault =>
      rw [he] at hres
      cases hres
    | ok found =>
      rw [he] at hres
      have hrest := ih (h.after he) hres
      rwa [List.append_assoc] at hrest

theorem accounts_nil (r : Resolver) (required : List String) :
    r.Accounts required [] ⟨[], [], [], false⟩ where
  keys := rfl
  values := by simp
  unresolved := rfl
  missing := rfl
  complete := rfl

end Accounts

/-! ### The two policies -/

section Policies

variable {r : Resolver} {es extra before after : List String} {e : String} {memo : Memo}

/-- Under the policy to proceed a batch is gone through to its end. -/
theorem batch_proceed (hm : r.Faithful memo) (es extra : List String) :
    r.batch .proceed es extra memo =
      r.account (r.required ++ extra) ⟨[], [], [], false⟩ es := by
  refine result_resolveRest_of_not_stopsAt (hm.withPolicy .proceed) fun e _ found _ => ?_
  rw [stopsAt_iff]
  rintro ⟨-, -, hpolicy⟩
  cases hpolicy

theorem not_stopsAt_of_not_isMissing {required : List String} {policy : RequiredPolicy}
    (hnot : ¬r.IsMissing required e) {found : Option LocatedValue} (he : r.answer e = .ok found) :
    ¬(r.withPolicy policy).stopsAt required e found := by
  rw [stopsAt_iff]
  rintro ⟨rfl, hv, -⟩
  exact hnot ⟨he, hv⟩

theorem batch_stop_of_forall (hm : r.Faithful memo)
    (hall : ∀ e ∈ es, ¬r.IsMissing (r.required ++ extra) e) :
    r.batch .stop es extra memo = r.batch .proceed es extra memo := by
  rw [batch_proceed hm]
  exact result_resolveRest_of_not_stopsAt (hm.withPolicy .stop)
    fun e he _ hfound => not_stopsAt_of_not_isMissing (hall e he) hfound

theorem batch_stop_of_first (hm : r.Faithful memo)
    (hbefore : ∀ e ∈ before, ¬r.IsMissing (r.required ++ extra) e)
    (he : r.IsMissing (r.required ++ extra) e) :
    r.batch .stop (before ++ e :: after) extra memo =
      (r.batch .proceed (before ++ [e]) extra memo).map Resolution.abort := by
  rw [batch_proceed hm]
  exact result_resolveRest_of_stopsAt (hm.withPolicy .stop)
    (fun e he _ hfound => not_stopsAt_of_not_isMissing (hbefore e he) hfound) he.1
    (stopsAt_iff.mpr ⟨rfl, he.2, rfl⟩)

/-- **What a batch comes to under either policy**, whatever has been asked before. Under the policy
to proceed it comes to an end exactly if every lookup does, and the resolution accounts for every
expression; otherwise it fails as the first lookup does that fails. Under the policy to stop it
comes to what the shortest beginning of it that ends in a missing required name comes to when
proceeding, marked as broken off, and to the same as when proceeding if there is no such name. -/
theorem resolveAll_policies (hm : r.Faithful memo) (es extra : List String) :
    ((∃ res, r.batch .proceed es extra memo = .ok res) ↔
        ∀ e ∈ es, ∃ found, r.answer e = .ok found) ∧
      (∀ res, r.batch .proceed es extra memo = .ok res →
        r.Accounts (r.required ++ extra) es res) ∧
      (∀ fault, r.batch .proceed es extra memo = .error fault →
        ∃ before e after, es = before ++ e :: after ∧ r.answer e = .error fault ∧
          ∀ e' ∈ before, ∃ found, r.answer e' = .ok found) ∧
      (∀ before e after, es = before ++ e :: after →
        (∀ e' ∈ before, ¬r.IsMissing (r.required ++ extra) e') →
        r.IsMissing (r.required ++ extra) e →
        r.batch .stop es extra memo =
          (r.batch .proceed (before ++ [e]) extra memo).map Resolution.abort) ∧
      ((∀ e ∈ es, ¬r.IsMissing (r.required ++ extra) e) →
        r.batch .stop es extra memo = r.batch .proceed es extra memo) := by
  refine ⟨?_, ?_, ?_, ?_, fun hall => batch_stop_of_forall hm hall⟩
  · rw [batch_proceed hm]
    exact account_ok_iff
  · rw [batch_proceed hm]
    exact fun res hres => (accounts_nil r _).account hres
  · rw [batch_proceed hm]
    exact fun fault hfault => account_error hfault
  · rintro before e after rfl hbefore he
    exact batch_stop_of_first hm hbefore he

end Policies

/-! ### A batch with a required name that is missing -/

/-- The resolver over `{"a": 1}`, with a token required. -/
def tokenWanted : Resolver := ⟨.default, .proceed, [⟨[(.str "a", .int 1)], none⟩], ["token"]⟩

theorem answer_tokenWanted :
    (tokenWanted.answer "$\x7btoken\x7d") = .ok none ∧
      (tokenWanted.answer "$\x7ba\x7d") ≠ .ok none := by
  have hnone : (tokenWanted.answer "$\x7btoken\x7d").toOption.map Option.isNone = some true := by
    decide +kernel
  have hsome : (tokenWanted.answer "$\x7ba\x7d").toOption.map Option.isNone = some false := by
    decide +kernel
  refine ⟨eq_ok_none hnone, fun h => ?_⟩
  rw [h] at hsome
  cases hsome

/-- The batch stops at the token, though it has been looked up before. -/
theorem resolveAll_policies_tokenWanted :
    tokenWanted.batch .stop ["$\x7ba\x7d", "$\x7btoken\x7d", "$\x7bb\x7d"] []
        (tokenWanted.getValue "token" []).2 =
      (tokenWanted.batch .proceed ["$\x7ba\x7d", "$\x7btoken\x7d"] []
        (tokenWanted.getValue "token" []).2).map Resolution.abort := by
  have hm : tokenWanted.Faithful (tokenWanted.getValue "token" []).2 :=
    (transparent_getValue _ _).keeps _ (faithful_nil _)
  obtain ⟨-, -, -, hstop, -⟩ :=
    resolveAll_policies hm ["$\x7ba\x7d", "$\x7btoken\x7d", "$\x7bb\x7d"] []
  refine hstop ["$\x7ba\x7d"] _ ["$\x7bb\x7d"] rfl ?_ ⟨answer_tokenWanted.1, by decide +kernel⟩
  exact List.forall_mem_singleton.mpr fun h => answer_tokenWanted.2 h.1

end Resolver

end ApiSuite
