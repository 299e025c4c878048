import ApiSuite.Proofs.Yaml.Frames
import ApiSuite.Traced
import Mathlib.Data.List.TakeWhile

/-!
# The entries of a document and their tokens

If the outermost mapping of a document is written as a block, it has one entry for each entry of the
tokens, in their order, and its key stands where the tokens of the key do, unless it is an alias
(`ApiSuite.Yaml.Node.entries_of_tokens`).

The tokens before the mapping leave a stack without content (`ApiSuite.Yaml.IsBefore`), and the
token that begins it makes the stack one of no entries (`ApiSuite.Yaml.IsBefore.begin`). From then
on every token keeps the invariant of the frames (`ApiSuite.Yaml.Stack.feed`), up to the one that
ends the mapping, and after that nothing changes it (`ApiSuite.Yaml.IsAfter.feed`).
-/

namespace ApiSuite.Yaml

section Stacks

variable {o : Opening} {tail : List Frame} {es : List EntryTokens} {e : EntryTokens} {b : Outline}
  {d D : Nat} {f : Frame} {fs : List Frame} {t : Token} {n : Node} {a c : Assembly}

/-! ### The outermost mapping -/

/-- What may be known of a document after its outermost node. -/
def IsAfter (root : Node) (a : Assembly) : Prop :=
  a.frames = [] ∧ (a.progress = .after root ∨ a.progress = .ended root ∨
    (∃ m version, a.progress = .further m version) ∨ a.progress = .done (some root))

/-- What a token comes to that has been taken: the outermost mapping is finished, or the token is
one more of the entries. -/
def Stepped (o : Opening) (tail : List Frame) (b : Outline) (D : Nat) (t : Token) (c : Assembly) :
    Prop :=
  if (D == 0 && t.kind.closes) = true then
    ∃ done, AreKeys b.entries done ∧ IsAfter (.map o done) c
  else c.progress = .inside ∧ Stack o tail (b.add D t) (depthAfter t D) c.frames

/-- What an offer comes to. -/
def Goes (o : Opening) (tail : List Frame) (b : Outline) (D : Nat) (t : Token) :
    Assembly.Offer → Prop
  | .taken c => Stepped o tail b D t c
  | .passed c => c.progress = .inside ∧ Stack o tail b D c.frames

/-- A token within an entry is added to it. -/
theorem stepped_of_inner (hinner : D = 0 → t.kind.isInner = true) (hp : c.progress = .inside)
    (hc : Stack o tail ⟨es, some (e.grow t)⟩ (depthAfter t D) c.frames) :
    Stepped o tail ⟨es, some e⟩ D t c := by
  obtain ⟨hadd, hopen⟩ : (⟨es, some e⟩ : Outline).add D t = ⟨es, some (e.grow t)⟩ ∧
      (D == 0 && t.kind.closes) = false := by
    cases D with
    | zero =>
      have hkind := hinner rfl
      simp only [Token.Kind.isInner, Bool.not_eq_true', Bool.or_eq_false_iff] at hkind
      simp [Outline.add, hkind]
    | succ D => simp [Outline.add]
  rw [Stepped, hopen, hadd]
  exact ⟨hp, hc⟩

/-- The outermost mapping is finished. -/
theorem isAfter_close {done : List (Node × Node)} (htail : tail = [] ∨ tail = [.content]) :
    IsAfter (.map o done) ((a.withFrames tail).closeMap o done) := by
  obtain ⟨hframes, -⟩ := (a.withFrames tail).remember_frames o.anchor (.map o done)
  unfold Assembly.closeMap Assembly.close Assembly.deliver
  rw [hframes]
  rcases htail with rfl | rfl
  · exact ⟨rfl, .inl rfl⟩
  · exact ⟨rfl, .inl rfl⟩

/-- **What the topmost frame does with a token.** -/
theorem Stack.offer (h : Stack o tail b D (f :: fs)) (htail : tail = [] ∨ tail = [.content])
    (ha : a.frames = f :: fs) (hp : a.progress = .inside) :
    GivesAs (Goes o tail b D t) (a.offer f fs t) := by
  have hwhole := h
  cases h with
  | @entries _ done hdone =>
    unfold Assembly.offer
    dsimp only
    split
    case h_1 hstyle _ => cases hstyle
    case h_2 hstyle _ => cases hstyle
    case h_3 hstyle _ _ => cases hstyle
    case h_4 hstyle => cases hstyle
    case h_5 hkind _ _ =>
      -- the mark of a key begins an entry
      have hadd : b.add 0 t = ⟨b.entries, some ⟨t, [], none⟩⟩ := by simp [Outline.add, hkind]
      refine givesAs_ok.mpr ?_
      rw [Goes, Stepped, hkind]
      refine ⟨hp, ?_⟩
      rw [hadd, depthAfter_eq (hkind ▸ rfl) (hkind ▸ rfl) 0]
      exact .key rfl rfl ⟨t, List.mem_cons_self, .inr rfl⟩ hdone
    case h_6 hkind _ _ =>
      refine givesAs_ok.mpr ?_
      rw [Goes, Stepped, hkind]
      exact ⟨done, hdone, isAfter_close htail⟩
    case h_7 => simp [Assembly.fail]
  | @key es e done m hvalue hkey hm hdone =>
    unfold Assembly.offer
    refine givesAs_ite.mpr ⟨fun _ => givesAs_ok.mpr ?_, fun _ => ?_⟩
    · have hw : Waits o tail es e 0 a.frames := ha ▸ hwhole.waits rfl
      obtain ⟨hprogress, hstack⟩ := hw.deliver (n := Assembly.emptyScalar m) hm
        (by simp [Assembly.emptyScalar])
      exact ⟨hprogress.trans hp, hstack⟩
    · refine givesAs_map.mpr ((hwhole.addNode rfl ha _).imp fun c hc => ?_)
      exact stepped_of_inner (fun _ => hc.1) (hc.2.1.trans hp) hc.2.2
  | @keyed es e done k hk hdone =>
    unfold Assembly.offer
    refine givesAs_ite.mpr ⟨fun hkind => givesAs_ok.mpr ?_, fun _ => givesAs_ok.mpr ?_⟩
    · -- the mark of the value
      have hvalue : t.kind = .value := by simpa using hkind
      have hadd : (⟨es, some e⟩ : Outline).add 0 t = ⟨es, some { e with value := some [] }⟩ := by
        simp [Outline.add, hvalue]
      rw [Goes, Stepped, hvalue]
      refine ⟨hp, ?_⟩
      rw [hadd, depthAfter_eq (hvalue ▸ rfl) (hvalue ▸ rfl) 0]
      exact .value hk hdone
    · exact ⟨hp, .entries (hdone.concat hk)⟩
  | @value es e done k m hk hdone =>
    unfold Assembly.offer
    refine givesAs_ite.mpr ⟨fun _ => givesAs_ok.mpr ?_, fun _ => ?_⟩
    · -- a value that is not written
      unfold Goes Assembly.deliver
      rw [ha]
      exact ⟨hp, .entries (hdone.concat hk)⟩
    · refine givesAs_map.mpr ((hwhole.addNode rfl ha _).imp fun c hc => ?_)
      exact stepped_of_inner (fun _ => hc.1) (hc.2.1.trans hp) hc.2.2
  | inner hf hw hD =>
    refine (hw.offer hf hD ha).imp fun offer hoffer => ?_
    cases offer with
    | taken c => exact stepped_of_inner hoffer.1 (hoffer.2.1.trans hp) hoffer.2.2
    | passed c => exact ⟨hoffer.1.trans hp, hoffer.2⟩

/-- **A token that is taken.** -/
theorem Stack.feed (h : Stack o tail b D a.frames) (htail : tail = [] ∨ tail = [.content])
    (hp : a.progress = .inside) : GivesAs (Stepped o tail b D t) (a.feed t) := by
  fun_induction Assembly.feed t a with
  | case1 a hnil =>
    rw [hnil] at h
    cases h
  | case2 => simp
  | case3 a f fs hframes c hoffer =>
    rw [hframes] at h
    exact givesAs_ok.mpr (h.offer htail hframes hp _ hoffer)
  | case4 a f fs hframes c hoffer _ ih =>
    rw [hframes] at h
    obtain ⟨hprogress, hstack⟩ := h.offer htail hframes hp _ hoffer
    exact ih hstack hprogress
  | case5 => simp [Assembly.fail]

theorem frames_addDirective (versionSeen : Bool) (t : Token) (a : Assembly) :
    GivesAs (fun r => r.2.frames = a.frames) (a.addDirective t versionSeen) := by
  unfold Assembly.addDirective
  split <;> simp [Assembly.fail]

/-- After the outermost node comes nothing that changes it. -/
theorem IsAfter.feed {root : Node} (h : IsAfter root a) : GivesAs (IsAfter root) (a.feed t) := by
  obtain ⟨hframes, hprogress⟩ := h
  -- a further directive leaves no node to come
  have hfurther (a' : Assembly) (ha' : a'.frames = []) (versionSeen : Bool) (m : Mark) :
      GivesAs (IsAfter root) ((a'.addDirective t versionSeen).bind fun r =>
        pure { r.2 with progress := .further m r.1 }) :=
    givesAs_bind (frames_addDirective versionSeen t a') fun r hr =>
      givesAs_pure.mpr ⟨hr.trans ha', .inr (.inr (.inl ⟨m, r.1, rfl⟩))⟩
  -- a document that is complete may be ended, or be followed by directives
  have hcomplete (a' : Assembly) (ha' : a'.frames = []) : GivesAs (IsAfter root)
      (if t.kind == .documentEnd then .ok { a' with progress := .ended root }
        else if t.kind == .endOfInput then .ok { a' with progress := .done (some root) }
        else if Assembly.isDirective t then
          ({ a' with handles := [] }.addDirective t false).bind fun r =>
            pure { r.2 with progress := .further t.first r.1 }
        else Assembly.fail t.first) := by
    refine givesAs_ite.mpr ⟨fun _ => givesAs_ok.mpr ⟨ha', .inr (.inl rfl)⟩, fun _ => ?_⟩
    refine givesAs_ite.mpr ⟨fun _ => givesAs_ok.mpr ⟨ha', .inr (.inr (.inr rfl))⟩, fun _ => ?_⟩
    exact givesAs_ite.mpr
      ⟨fun _ => hfurther { a' with handles := [] } ha' false t.first, fun _ => givesAs_error _⟩
  obtain ⟨progress, frames, anchors, handles⟩ := a
  cases hframes
  unfold Assembly.feed Assembly.feedDocument
  rcases hprogress with hprogress | hprogress | ⟨m, version, hprogress⟩ | hprogress <;>
    cases hprogress
  · exact hcomplete _ rfl
  · exact hcomplete _ rfl
  · refine givesAs_ite.mpr ⟨fun _ => hfurther _ rfl _ _, fun _ => ?_⟩
    exact givesAs_ite.mpr ⟨fun _ => givesAs_error _, fun _ => givesAs_error _⟩
  · exact givesAs_ok.mpr ⟨rfl, .inr (.inr (.inr rfl))⟩

/-- Nor does a run of tokens. -/
theorem IsAfter.run {ts : List Token} {root : Node} (h : IsAfter root a)
    (hrun : ts.foldlM (fun a t => a.feed t) a = .ok c) : IsAfter root c :=
  givesAs_foldlM (fun _ ha _ _ => IsAfter.feed ha) h c hrun

/-- **A run of tokens** over the outermost mapping gives the entries. -/
theorem Stack.run {ts : List Token} {root : Node} (h : Stack o tail b D a.frames)
    (htail : tail = [] ∨ tail = [.content]) (hp : a.progress = .inside)
    (hrun : ts.foldlM (fun a t => a.feed t) a = .ok c) (hroot : c.progress = .done (some root)) :
    ∃ done, root = .map o done ∧ AreKeys (outlineFrom D b ts).entries done := by
  induction ts generalizing a b D with
  | nil =>
    cases Except.ok.inj hrun
    cases hp.symm.trans hroot
  | cons t ts ih =>
    rw [List.foldlM_cons] at hrun
    obtain ⟨a', hfeed, hrun⟩ := bind_eq_ok_iff.mp hrun
    have hstep := h.feed htail hp a' hfeed
    unfold Stepped at hstep
    rw [outlineFrom]
    split at hstep
    · rename_i hends
      rw [if_pos hends]
      obtain ⟨done, hdone, hafter⟩ := hstep
      refine ⟨done, ?_, hdone⟩
      -- the tokens after the mapping leave it as it is, so it is what the document ends with
      rcases (hafter.run hrun).2 with hprogress | hprogress | ⟨m, version, hprogress⟩ | hprogress
      · cases hroot.symm.trans hprogress
      · cases hroot.symm.trans hprogress
      · cases hroot.symm.trans hprogress
      · cases hroot.symm.trans hprogress
        rfl
    · rename_i hgoes
      rw [if_neg hgoes]
      exact ih hstep.2 hstep.1 hrun

/-! ### Before the outermost node -/

/-- What may be known of a document before the content of its outermost node, or after it if it has
none. -/
def IsBefore (a : Assembly) : Prop :=
  (a.frames = [] ∧ ∀ root, a.progress ≠ .done root) ∨
    a.progress = .inside ∧ (a.frames = [.content] ∨
      ∃ p tail, (tail = [] ∨ tail = [.content]) ∧ a.frames = .node .block p :: tail)

/-- The outermost mapping has been begun. -/
def HasBegun (a : Assembly) : Prop :=
  a.progress = .inside ∧
    ∃ o tail, (tail = [] ∨ tail = [.content]) ∧ a.frames = .entries .block o [] :: tail

/-- A mapping is begun over the frames. -/
theorem begins_mapping (ht : t.kind = .mappingStart) (anchor tag : Option String) (m : Mark) :
    GivesAs (fun begun => ∃ o' c, begun = some c ∧ c.progress = a.progress ∧
      c.frames = .entries .block o' [] :: a.frames) (a.beginNode .block anchor tag m t) := by
  unfold Assembly.beginNode
  rw [ht]
  refine givesAs_map.mpr ?_
  unfold Assembly.open_
  refine givesAs_bind_any fun _ => givesAs_pure.mpr ?_
  obtain ⟨hframes, hprogress⟩ := a.remember_frames anchor
    (.cycle true ⟨anchor, Assembly.collectionTag .map tag, m, a.frames.length⟩)
  exact ⟨_, _, rfl, hprogress, congrArg _ hframes⟩

theorem adds_mapping (ht : t.kind = .mappingStart) :
    GivesAs (fun c => c.progress = a.progress ∧
      ∃ o', c.frames = .entries .block o' [] :: a.frames) (a.addNode .block t) := by
  unfold Assembly.addNode
  rw [ht]
  refine givesAs_bind (begins_mapping ht none none t.first) ?_
  rintro _ ⟨o', c, rfl, hp, hframes⟩
  exact givesAs_pure.mpr ⟨hp, o', hframes⟩

/-- A token that is offered to a frame is taken, or passed on and fed again. -/
theorem feed_offered {P : Assembly → Prop} {Q : Assembly.Offer → Prop} (ha : a.frames = f :: fs)
    (hoffer : GivesAs Q (a.offer f fs t)) (htaken : ∀ c, Q (.taken c) → P c)
    (hpassed : ∀ c, Q (.passed c) → GivesAs P (c.feed t)) : GivesAs P (a.feed t) := by
  rw [Assembly.feed]
  split
  · rename_i heq
    cases heq.symm.trans ha
  · rename_i f' fs' heq
    cases heq.symm.trans ha
    split
    · exact givesAs_error _
    · rename_i c heq'
      exact givesAs_ok.mpr (htaken c (hoffer _ heq'))
    · rename_i c heq'
      exact givesAs_ite.mpr ⟨fun _ => hpassed c (hoffer _ heq'), fun _ => givesAs_error _⟩

/-- An offer is taken, and comes to something of which a property holds. -/
def TakenAs (P : Assembly → Prop) : Assembly.Offer → Prop
  | .taken c => P c
  | .passed _ => False

/-- **The beginning of the outermost mapping.** -/
theorem IsBefore.begin (h : IsBefore a) (ht : t.kind = .mappingStart) :
    GivesAs HasBegun (a.feed t) := by
  obtain ⟨progress, frames, anchors, handles⟩ := a
  rcases h with ⟨hframes, hprogress⟩ | ⟨hprogress, hframes | ⟨p, tail, htail, hframes⟩⟩
  · cases hframes
    unfold Assembly.feed Assembly.feedDocument
    cases progress with
    | before =>
      simp only [ht, Assembly.isDirective]
      refine (adds_mapping ht).imp fun c hc => ?_
      obtain ⟨hp, o', hframes⟩ := hc
      exact ⟨hp, o', [], .inl rfl, hframes⟩
    | done root => exact absurd rfl (hprogress root)
    | _ => simp [ht, Assembly.isDirective, Assembly.fail]
  · refine feed_offered (Q := TakenAs HasBegun) hframes ?_ (fun _ hc => hc) fun _ hc => hc.elim
    unfold Assembly.offer
    rw [ht]
    refine givesAs_map.mpr ((adds_mapping ht).imp fun c hc => ⟨hc.1.trans hprogress, ?_⟩)
    obtain ⟨o', hc⟩ := hc.2
    exact ⟨o', [.content], .inr rfl, hc.trans (congrArg _ hframes)⟩
  · refine feed_offered (Q := TakenAs HasBegun) hframes ?_ (fun _ hc => hc) fun _ hc => hc.elim
    unfold Assembly.offer
    dsimp only
    split
    · rename_i hkind _ _
      cases hkind.symm.trans ht
    · rename_i hkind _ _
      cases hkind.symm.trans ht
    · refine givesAs_bind_any fun tag => ?_
      refine givesAs_bind (begins_mapping ht p.anchor tag _) ?_
      rintro _ ⟨o', c, rfl, hp, hc⟩
      exact givesAs_pure.mpr ⟨hp.trans hprogress, o', tail, htail, hc⟩

/-- A token before the outermost node is a directive or the mark of a document, or it says something
about the node. -/
theorem preamble_cases (ht : t.isPreamble = true) :
    (Assembly.isDirective t = true ∨ t.kind = .documentStart) ∨
      (∃ name, t.kind = .anchor name) ∨ ∃ w, t.kind = .tag w := by
  unfold Token.isPreamble at ht
  unfold Assembly.isDirective
  split at ht <;> simp_all

/-- What is said about the outermost node. -/
theorem adds_properties (ht : (∃ name, t.kind = .anchor name) ∨ ∃ w, t.kind = .tag w) :
    GivesAs (fun c => c.progress = a.progress ∧ ∃ p, c.frames = .node .block p :: a.frames)
      (a.addNode .block t) := by
  unfold Assembly.addNode
  rcases ht with ⟨name, hkind⟩ | ⟨w, hkind⟩
  · rw [hkind]
    exact givesAs_ok.mpr ⟨rfl, _, rfl⟩
  · rw [hkind]
    exact givesAs_ok.mpr ⟨rfl, _, rfl⟩

/-- Before the outermost node there is no content. -/
theorem no_content (ht : t.isPreamble = true) (setting : Setting) (anchor tag : Option String)
    (m : Mark) (a : Assembly) : a.beginNode setting anchor tag m t = .ok none := by
  unfold Token.isPreamble at ht
  unfold Assembly.beginNode
  split at ht <;> simp_all

theorem isBefore_feedDocument (ha : a.frames = []) (hp : ∀ root, a.progress ≠ .done root)
    (ht : t.isPreamble = true) : GivesAs IsBefore (a.feedDocument t) := by
  have hend : (t.kind == .endOfInput) = false ∧ (t.kind == .documentEnd) = false := by
    unfold Token.isPreamble at ht
    split at ht <;> simp_all
  have hdirective (a' : Assembly) (ha' : a'.frames = []) (versionSeen : Bool) (f : Bool → Progress)
      (hf : ∀ version root, f version ≠ .done root) :
      GivesAs IsBefore ((a'.addDirective t versionSeen).bind fun r =>
        pure { r.2 with progress := f r.1 }) :=
    givesAs_bind (frames_addDirective versionSeen t a') fun r hr =>
      givesAs_pure.mpr (.inl ⟨hr.trans ha', hf r.1⟩)
  obtain ⟨progress, frames, anchors, handles⟩ := a
  cases ha
  have hinside : IsBefore ⟨.inside, [.content], anchors, handles⟩ := .inr ⟨rfl, .inl rfl⟩
  unfold Assembly.feedDocument
  cases progress with
  | before =>
    simp only [hend, Bool.false_eq_true, if_false]
    refine givesAs_ite.mpr
      ⟨fun _ => hdirective _ rfl false (.directives t.first) (by simp), fun hnot => ?_⟩
    refine givesAs_ite.mpr ⟨fun _ => givesAs_ok.mpr hinside, fun hnot' => ?_⟩
    have hsaid : (∃ name, t.kind = .anchor name) ∨ ∃ w, t.kind = .tag w := by
      rcases preamble_cases ht with (hdir | hstart) | hsaid
      · exact absurd hdir hnot
      · exact absurd (by simp [hstart]) hnot'
      · exact hsaid
    refine (adds_properties hsaid).imp fun c hc => .inr ⟨hc.1, .inr ?_⟩
    obtain ⟨p, hc⟩ := hc.2
    exact ⟨p, [], .inl rfl, hc⟩
  | directives first version =>
    refine givesAs_ite.mpr
      ⟨fun _ => hdirective _ rfl version (.directives first) (by simp), fun _ => ?_⟩
    exact givesAs_ite.mpr ⟨fun _ => givesAs_ok.mpr hinside, fun _ => givesAs_error _⟩
  | inside => exact givesAs_error _
  | after root =>
    simp only [hend, Bool.false_eq_true, if_false]
    exact givesAs_ite.mpr
      ⟨fun _ => hdirective _ rfl false (.further t.first) (by simp), fun _ => givesAs_error _⟩
  | ended root =>
    simp only [hend, Bool.false_eq_true, if_false]
    exact givesAs_ite.mpr
      ⟨fun _ => hdirective _ rfl false (.further t.first) (by simp), fun _ => givesAs_error _⟩
  | further first version =>
    refine givesAs_ite.mpr
      ⟨fun _ => hdirective _ rfl version (.further first) (by simp), fun _ => ?_⟩
    exact givesAs_ite.mpr ⟨fun _ => givesAs_error _, fun _ => givesAs_error _⟩
  | done root => exact absurd rfl (hp root)

/-- What an offer comes to before the content of the outermost node: the token is taken, or the node
is left out. -/
def LeavesOut : Assembly.Offer → Prop
  | .taken c => IsBefore c
  | .passed c => c.frames = [] ∧ ∀ root, c.progress ≠ .done root

theorem leavesOut_deliver (htail : a.frames = [] ∨ a.frames = [.content]) (n : Node) :
    LeavesOut (.passed (a.deliver n)) := by
  unfold LeavesOut Assembly.deliver
  rcases htail with htail | htail <;> rw [htail]
  · exact ⟨rfl, nofun⟩
  · exact ⟨rfl, nofun⟩

/-- **A token before the content of the outermost node.** -/
theorem IsBefore.feed (h : IsBefore a) (ht : t.isPreamble = true) :
    GivesAs IsBefore (a.feed t) := by
  have hdocument (c : Assembly) (hc : c.frames = []) (hp : ∀ root, c.progress ≠ .done root) :
      GivesAs IsBefore (c.feed t) := by
    rw [Assembly.feed]
    split
    · exact isBefore_feedDocument hc hp ht
    · rename_i heq
      cases heq.symm.trans hc
  rcases h with ⟨hframes, hprogress⟩ | ⟨hprogress, hframes | ⟨p, tail, htail, hframes⟩⟩
  · exact hdocument a hframes hprogress
  · refine feed_offered (Q := LeavesOut) hframes ?_ (fun _ hc => hc)
      fun c hc => hdocument c hc.1 hc.2
    rcases preamble_cases ht with hplain | hsaid
    · -- what begins with the mark of a document has no content
      have hpassed : a.offer .content [] t =
          .ok (.passed (a.deliver (Assembly.emptyScalar t.first))) := by
        unfold Assembly.isDirective at hplain
        unfold Assembly.offer
        split at hplain <;> simp_all
      rw [hpassed]
      exact givesAs_ok.mpr (leavesOut_deliver (.inr hframes) _)
    · have hnode : a.offer .content [] t = (a.addNode .block t).map .taken := by
        unfold Assembly.offer
        rcases hsaid with ⟨name, hkind⟩ | ⟨w, hkind⟩ <;> rw [hkind]
      rw [hnode]
      refine givesAs_map.mpr ((adds_properties hsaid).imp fun c hc => ?_)
      obtain ⟨hp, p, hc⟩ := hc
      exact .inr ⟨hp.trans hprogress, .inr ⟨p, [.content], .inr rfl, hc.trans (congrArg _ hframes)⟩⟩
  · refine feed_offered (Q := LeavesOut) hframes ?_ (fun _ hc => hc)
      fun c hc => hdocument c hc.1 hc.2
    have hmore (p' : Properties) :
        LeavesOut (.taken ((a.withFrames tail).pushFrame (.node .block p'))) :=
      .inr ⟨hprogress, .inr ⟨p', tail, htail, rfl⟩⟩
    unfold Assembly.offer
    dsimp only
    split
    · exact givesAs_bind_any fun _ => givesAs_pure.mpr (hmore _)
    · exact givesAs_bind_any fun _ => givesAs_pure.mpr (hmore _)
    · refine givesAs_bind_any fun tag => ?_
      rw [no_content ht]
      refine givesAs_bind (q := fun c => LeavesOut (.passed c)) ?_ fun c hc => givesAs_pure.mpr hc
      unfold Assembly.addScalar Assembly.close
      refine givesAs_bind_any fun _ => givesAs_pure.mpr ?_
      refine leavesOut_deliver ?_ _
      rw [(Assembly.remember_frames _ _ _).1]
      exact htail

theorem IsBefore.run {ts : List Token} (h : IsBefore a) (hts : ∀ t ∈ ts, t.isPreamble = true)
    (hrun : ts.foldlM (fun a t => a.feed t) a = .ok c) : IsBefore c :=
  givesAs_foldlM (fun _ ha t ht => IsBefore.feed ha (hts t ht)) h c hrun

end Stacks

/-! ### Documents -/

section Documents

variable {ts : List Token} {entries : List EntryTokens} {failure : Option Failure} {root : Node}
  {e : EntryTokens} {k : Node} {o : Opening} {done : List (Node × Node)}

/-- A key stays where it is when cycles are unrolled. -/
theorem EntryTokens.HasKey.replaceCycles (h : e.HasKey k) (stands : Bool → Opening → Node) :
    e.HasKey (k.replaceCycles stands) := by
  rcases h with halias | ⟨hcycle, hmark⟩
  · exact .inl halias
  · cases k with
    | scalar tag text m => exact .inr ⟨nofun, hmark⟩
    | list o items => exact .inr ⟨nofun, hmark⟩
    | map o entries => exact .inr ⟨nofun, hmark⟩
    | cycle isMap o => exact absurd rfl (hcycle isMap o)

theorem AreKeys.replaceCycles (h : AreKeys entries done) (stands : Bool → Opening → Node) :
    AreKeys entries (Node.replaceInEntries stands done) := by
  induction h with
  | nil => exact .nil
  | cons hk _ ih => exact .cons (hk.replaceCycles stands) ih

/-- A mapping has the same keys when its cycles are unrolled. -/
theorem unrolled_map (h : AreKeys entries done) (named : List (String × Node)) (depth : Nat) :
    ∃ done', (Node.map o done).unrolled named depth = .map o done' ∧ AreKeys entries done' := by
  cases depth with
  | zero => exact ⟨done, by rw [Node.unrolled], h⟩
  | succ depth =>
    rw [Node.unrolled]
    exact ⟨_, rfl, h.replaceCycles _⟩

/-- A run over the tokens of a document of which the outermost node is a block mapping. -/
theorem map_of_run {c : Assembly} (hentries : blockEntries ts = some entries)
    (hrun : ts.foldlM (fun a t => a.feed t) Assembly.start = .ok c)
    (hroot : c.progress = .done (some root)) :
    ∃ o done, root = .map o done ∧ AreKeys entries done := by
  -- the tokens are those before the mapping, its beginning, and those of its entries and after it
  rw [← List.takeWhile_append_dropWhile (p := Token.isPreamble) (l := ts),
    List.foldlM_append] at hrun
  unfold blockEntries at hentries
  cases hbody : ts.dropWhile Token.isPreamble with
  | nil =>
    rw [hbody] at hentries
    cases hentries
  | cons t body =>
    rw [hbody] at hentries hrun
    dsimp only at hentries
    obtain ⟨a, hpreamble, hrun⟩ := bind_eq_ok_iff.mp hrun
    rw [List.foldlM_cons] at hrun
    obtain ⟨a', hfeed, hrun⟩ := bind_eq_ok_iff.mp hrun
    have hbefore : IsBefore Assembly.start := .inl ⟨rfl, nofun⟩
    have ha := hbefore.run (fun t ht => List.mem_takeWhile_imp ht) hpreamble
    split at hentries
    · rename_i hkind
      cases Option.some.inj hentries
      obtain ⟨hp, o, tail, htail, hframes⟩ := ha.begin (by simpa using hkind) a' hfeed
      have hstack : Stack o tail .empty 0 a'.frames := hframes ▸ .entries .nil
      obtain ⟨done, hdone, hkeys⟩ := hstack.run htail hp hrun hroot
      exact ⟨o, done, hdone, hkeys⟩
    · cases hentries

/-- **The entries of a document are those of its tokens**: if the outermost node is written as a
block mapping, it is a mapping with one entry for each entry of the tokens, of which the key is an
alias or stands where the tokens of the key do. -/
theorem Node.entries_of_tokens (hentries : blockEntries ts = some entries)
    (h : Node.ofTokens ts failure = .ok (some root)) :
    ∃ o done, root = .map o done ∧ AreKeys entries done := by
  obtain ⟨c, hrun, hc⟩ := bind_eq_ok_iff.mp h
  cases failure with
  | some e => cases hc
  | none =>
    cases hprogress : c.progress with
    | done found =>
      rw [hprogress] at hc
      have hfound : found.map (·.unrolled c.anchors c.anchors.length) = some root :=
        Except.ok.inj hc
      obtain ⟨whole, rfl, hroot⟩ := Option.map_eq_some_iff.mp hfound
      obtain ⟨o, done, rfl, hkeys⟩ := map_of_run hentries hrun hprogress
      obtain ⟨done', hunrolled, hkeys'⟩ := unrolled_map (o := o) hkeys c.anchors c.anchors.length
      exact ⟨o, done', hroot.symm.trans hunrolled, hkeys'⟩
    | _ =>
      rw [hprogress] at hc
      cases hc

/-- A token that is read is one more of the entries at most. -/
theorem Outline.sublist_add (depth : Nat) (t : Token) (b : Outline) :
    ((b.add depth t).entries.flatMap EntryTokens.all).Sublist
      (b.entries.flatMap EntryTokens.all ++ [t]) := by
  unfold Outline.add
  split
  · simp [Outline.entries, EntryTokens.all]
  · split
    · cases hcurrent : b.current with
      | none => simp [Outline.entries, hcurrent]
      | some e => simp [Outline.entries, hcurrent, EntryTokens.all]
    · cases hcurrent : b.current with
      | none => simp [Outline.entries, hcurrent]
      | some e => simp [Outline.entries, hcurrent]

theorem sublist_outlineFrom (depth : Nat) (b : Outline) (ts : List Token) :
    ((outlineFrom depth b ts).entries.flatMap EntryTokens.all).Sublist
      (b.entries.flatMap EntryTokens.all ++ ts) := by
  induction ts generalizing depth b with
  | nil => simp [outlineFrom]
  | cons t ts ih =>
    rw [outlineFrom]
    split
    · exact List.sublist_append_left _ _
    · have hadd := (b.sublist_add depth t).append (List.Sublist.refl ts)
      rw [List.append_assoc] at hadd
      exact (ih _ _).trans hadd

/-- **The tokens of entries are tokens of the document**, in their order. -/
theorem sublist_of_blockEntries (h : blockEntries ts = some entries) :
    (entries.flatMap EntryTokens.all).Sublist ts := by
  unfold blockEntries at h
  cases hbody : ts.dropWhile Token.isPreamble with
  | nil =>
    rw [hbody] at h
    cases h
  | cons t body =>
    rw [hbody] at h
    dsimp only at h
    split at h
    · cases Option.some.inj h
      have hbodySublist : (t :: body).Sublist ts := hbody ▸ List.dropWhile_sublist _
      exact (sublist_outlineFrom 0 .empty body).trans
        ((List.sublist_cons_self t body).trans hbodySublist)
    · cases h

end Documents

end ApiSuite.Yaml
