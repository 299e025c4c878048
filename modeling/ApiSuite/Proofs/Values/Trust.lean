import ApiSuite.Proofs.Template.Filling
import ApiSuite.Proofs.Values.Memo

/-!
# Trust only adds

A document that is not trusted may use paths only. To trust it can make expressions available
that had no value before, in any of the sources, and so it could let a source of higher precedence
answer that had nothing to say. This does not happen to what has been answered
(`ApiSuite.trust_only_adds`): a text that is resolved without trust consists of paths, as
otherwise one of its expressions would have had no value, and a path is evaluated alike in both
modes, whatever the context (`ApiSuite.Expression.IsPathText.evaluate_eq`). So the two modes agree
on each source that is tried, those before the hit included.
-/

namespace ApiSuite

/-! ### Texts that are paths -/

namespace Expression

/-- A text is read as a path. -/
def IsPathText (text : String) : Prop := ∃ e, parse text = .ok e ∧ e.isPath

/-- **A path is evaluated alike in both modes**, whatever the context. -/
theorem IsPathText.evaluate_eq {text : String} (h : IsPathText text) (context : Value) :
    evaluate true context text = evaluate false context text := by
  obtain ⟨e, hparse, hpath⟩ := h
  rw [evaluate_of_parse hparse (.inl rfl), evaluate_of_parse hparse (.inr hpath)]

theorem isPathText_of_evaluate {context v : Value} {text : String}
    (h : evaluate false context text = .ok v) : IsPathText text := by
  obtain ⟨e, hparse, hallowed, -⟩ := evaluate_eq_ok_iff.mp h
  exact ⟨e, hparse, hallowed.resolve_left (by simp)⟩

end Expression

open Expression

namespace Template

variable {context v : Value} {text : String} {body : List Char}

theorem Gives.isPathText (h : Gives false context text v) : IsPathText text :=
  isPathText_of_evaluate h.2.1

/-- What an expression gives without trust, it gives with trust. -/
theorem Gives.trusted (h : Gives false context text v) : Gives true context text v :=
  ⟨h.1, (h.isPathText.evaluate_eq context).trans h.2.1, h.2.2⟩

theorem FilledWith.trusted {t : String} (h : FilledWith false context body t) :
    FilledWith true context body t := by
  obtain ⟨v, hv, ht⟩ := h
  exact ⟨v, hv.trusted, ht⟩

/-- Where an expression is filled in, its text is all that is left. -/
theorem Leaves.eq_of_filledWith {trusted : Bool} {t : String} {left : List Char}
    (h : Leaves trusted context (.embedded body) left) (ht : FilledWith trusted context body t) :
    left = t.toList := h.unique (.filled ht)

/-- What is left in the place of a piece without trust, and with trust: what is filled in without
trust is filled in with the same text. -/
structure LeavesBoth (context : Value) (piece : Piece) (left : List Char × List Char) : Prop where
  untrusted : Leaves false context piece left.1
  trusted : Leaves true context piece left.2
  keeps : ∀ body t, piece = .embedded body → FilledWith false context body t →
    left.1 = t.toList ∧ left.2 = t.toList

theorem Leaves.both {piece : Piece} {left right : List Char} (h : Leaves false context piece left)
    (h' : Leaves true context piece right) : LeavesBoth context piece (left, right) where
  untrusted := h
  trusted := h'
  keeps := by
    rintro body t rfl ht
    exact ⟨h.eq_of_filledWith ht, h'.eq_of_filledWith ht.trusted⟩

theorem exists_leavesBoth {pieces : List Piece} {texts texts' : List (List Char)}
    (h : List.Forall₂ (Leaves false context) pieces texts)
    (h' : List.Forall₂ (Leaves true context) pieces texts') :
    ∃ both, List.Forall₂ (LeavesBoth context) pieces both ∧ both.map Prod.fst = texts ∧
      both.map Prod.snd = texts' := by
  induction h generalizing texts' with
  | nil =>
    cases h'
    exact ⟨[], .nil, rfl, rfl⟩
  | cons hpiece _ ih =>
    cases h' with
    | cons hpiece' hrest' =>
      obtain ⟨both, hboth, rfl, rfl⟩ := ih hrest'
      exact ⟨_ :: both, .cons (hpiece.both hpiece') hboth, rfl, rfl⟩

/-- **Substitution with trust keeps what substitution without it fills in.** -/
theorem substitute_trusted {s out out' : String}
    (h : (substitute false context s).result = .ok out)
    (h' : (substitute true context s).result = .ok out') :
    ∃ both, List.Forall₂ (LeavesBoth context) (split s.toList) both ∧
      out.toList = (both.map Prod.fst).flatten ∧ out'.toList = (both.map Prod.snd).flatten := by
  obtain ⟨texts, hleaves, hout⟩ := leaves_of_substitute h
  obtain ⟨texts', hleaves', hout'⟩ := leaves_of_substitute h'
  obtain ⟨both, hboth, rfl, rfl⟩ := exists_leavesBoth hleaves hleaves'
  exact ⟨both, hboth, hout, hout'⟩

/-! ### Texts whose expressions are paths -/

/-- All expressions of a text are paths. -/
def HasPaths (s : String) : Prop :=
  ∀ body, .embedded body ∈ split s.toList → IsPathText (embeddedText body)

theorem HasPaths.resolve_eq {s : String} (h : HasPaths s) (context : Value) :
    resolve true context s = resolve false context s := by
  refine resolve_congr fun body hbody => ?_
  rw [evaluatePart, evaluatePart, (h body hbody).evaluate_eq context]

/-- **What has a value without trust consists of paths.** -/
theorem hasPaths_of_resolve {s : String} (h : (resolve false context s).result = .ok (some v)) :
    HasPaths s := by
  intro body hbody
  obtain ⟨w, hw⟩ := (resolvesTo_of_resolve h).gives hbody
  exact hw.isPathText

end Template

open Template

/-! ### Lookups -/

section Lookups

variable {s : String} {sources : List Source} {found : LocatedValue}

theorem firstValue_eq_of_hasPaths (h : HasPaths s) :
    firstValue true s sources = firstValue false s sources := by
  induction sources with
  | nil => rfl
  | cons source rest ih => rw [firstValue, firstValue, h.resolve_eq, ih]

theorem hasPaths_of_firstValue (h : (firstValue false s sources).result = .ok (some found)) :
    HasPaths s := by
  induction sources with
  | nil => cases h
  | cons source rest ih =>
    rw [firstValue, Traced.result_bind] at h
    rcases hs : (resolve false (.object source.entries) s).result with fault | _ | v
    · rw [hs] at h
      cases h
    · rw [hs] at h
      exact ih h
    · exact hasPaths_of_resolve hs

/-- A hit without trust is a hit with trust: on all sources tried before it, the two modes
agree. -/
theorem firstValue_trusted (h : (firstValue false s sources).result = .ok (some found)) :
    (firstValue true s sources).result = .ok (some found) := by
  rw [firstValue_eq_of_hasPaths (hasPaths_of_firstValue h)]
  exact h

end Lookups

/-- Options in one of the two modes. -/
def ValuesOptions.withTrust (options : ValuesOptions) (trusted : Bool) : ValuesOptions :=
  { options with trusted }

/-- A resolver in one of the two modes. -/
def Resolver.withTrust (r : Resolver) (trusted : Bool) : Resolver :=
  { r with options := r.options.withTrust trusted }

/-- The mode has no part in how a resolver is made. -/
theorem ofHolders_withTrust {holders : List ValuesHolder} {options : ValuesOptions}
    {policy : RequiredPolicy} {r : Resolver} (h : Resolver.ofHolders holders options policy = .ok r)
    (trusted : Bool) :
    Resolver.ofHolders holders (options.withTrust trusted) policy = .ok (r.withTrust trusted) := by
  obtain ⟨sources, hs, rfl⟩ := Resolver.exists_sources_of_ofHolders h
  rw [Resolver.ofHolders, hs]
  rfl

theorem getValue_trusted {r : Resolver} {text : String} {memo memo' : Memo} {found : LocatedValue}
    (hm : (r.withTrust false).Faithful memo) (hm' : (r.withTrust true).Faithful memo')
    (h : ((r.withTrust false).getValue text memo).1.result = .ok (some found)) :
    ((r.withTrust true).getValue text memo').1.result = .ok (some found) := by
  -- what either of the two has found out before is what it would find out now
  rw [(Resolver.transparent_getValue _ text).answers memo hm, Resolver.getValue_nil] at h
  rw [(Resolver.transparent_getValue _ text).answers memo' hm', Resolver.getValue_nil]
  exact firstValue_trusted h

/-- **Trust only adds.** What a lookup finds without trust it finds with trust, in the same place,
whatever each of the two has been asked before. What a substitution without trust fills in, one
with trust fills in with the same text. And what is refused without trust are the expressions that
are no paths, in every context. -/
theorem trust_only_adds :
    (∀ holders (options : ValuesOptions) policy r,
      Resolver.ofHolders holders (options.withTrust false) policy = .ok r →
      ∃ r', Resolver.ofHolders holders (options.withTrust true) policy = .ok r' ∧
        ∀ text memo memo' found, r.Faithful memo → r'.Faithful memo' →
          (r.getValue text memo).1.result = .ok (some found) →
          (r'.getValue text memo').1.result = .ok (some found)) ∧
      (∀ context s out out', (substitute false context s).result = .ok out →
        (substitute true context s).result = .ok out' →
        ∃ both, List.Forall₂ (LeavesBoth context) (split s.toList) both ∧
          out.toList = (both.map Prod.fst).flatten ∧
          out'.toList = (both.map Prod.snd).flatten) ∧
      ∀ context text construct s,
        evaluate false context text = .error (.expression (.untrusted construct s)) ↔
          ∃ e, parse text = .ok e ∧ e.isPath = false ∧ construct = e.construct ∧ s = text := by
  refine ⟨?_, fun _ _ _ _ h h' => substitute_trusted h h', fun _ _ _ _ => evaluate_untrusted_iff⟩
  intro holders options policy r h
  have htrust : r.withTrust false = r :=
    Except.ok.inj ((ofHolders_withTrust h false).symm.trans h)
  refine ⟨r.withTrust true, ofHolders_withTrust h true, ?_⟩
  intro text memo memo' found hm hm' hfound
  rw [← htrust] at hm hfound
  exact getValue_trusted hm hm' hfound

end ApiSuite
