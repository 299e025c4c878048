import ApiSuite.Proofs.Yaml.Reach

/-!
# Tokens stand in the order of the text

Each token of a document stands in the text between two places, and the tokens come in the order of
these places (`ApiSuite.Yaml.tokens_inOrder`). This is not immediate, because a key token is put
before tokens that have been read already. So the invariant of a layout
(`ApiSuite.Yaml.Layout.Follows`) says where what may turn out to be a key belongs among the tokens
that wait: those before it end before its mark, and those from it on begin there or later. Of two
possible keys the one deeper in brackets belongs later, so putting a token before it leaves the
place of the other as it is.

Every step of the layout does one of a few things: the cursor goes on, a token is added that begins
at the cursor, possible keys are given up, or one is noted. The invariant is kept by each of these
(`ApiSuite.Yaml.Layout.Follows.push` and its neighbours), hence by every step and by a whole run.
-/

namespace ApiSuite.Yaml

/-! ### Tokens in order -/

/-- Tokens stand in a text one after another, from a place on. -/
def InOrder (s : String) : Nat → List Token → Prop
  | _, [] => True
  | start, t :: ts =>
    t.first.IsIn s ∧ t.last.IsIn s ∧ start ≤ t.first.index ∧ t.first.index ≤ t.last.index ∧
      InOrder s t.last.index ts

/-- The number of characters before the end of tokens that begin at a place. -/
def endOf (start : Nat) : List Token → Nat
  | [] => start
  | t :: ts => endOf t.last.index ts

section Tokens

variable {s : String} {start start' bound n : Nat} {ts us : List Token} {m : Mark}

theorem endOf_append (start : Nat) (ts us : List Token) :
    endOf start (ts ++ us) = endOf (endOf start ts) us := by
  induction ts generalizing start with
  | nil => rfl
  | cons t ts ih => exact ih _

theorem inOrder_append :
    InOrder s start (ts ++ us) ↔ InOrder s start ts ∧ InOrder s (endOf start ts) us := by
  induction ts generalizing start with
  | nil => simp [InOrder, endOf]
  | cons t ts ih => simp only [List.cons_append, InOrder, endOf, ih, and_assoc]

theorem InOrder.mono (h : InOrder s start ts) (hle : start' ≤ start) : InOrder s start' ts := by
  cases ts with
  | nil => trivial
  | cons t ts => exact ⟨h.1, h.2.1, Nat.le_trans hle h.2.2.1, h.2.2.2⟩

/-- Where the last of some tokens ends depends on where they begin only if there are none. -/
theorem endOf_drop_le (h : endOf start ts ≤ bound) (hstart : start' ≤ bound) :
    endOf start' (ts.drop n) ≤ bound := by
  cases hdrop : ts.drop n with
  | nil => exact hstart
  | cons t more =>
    rw [← List.take_append_drop n ts, endOf_append, hdrop] at h
    exact h

/-- A token of no width. -/
theorem inOrder_mark {kind : Token.Kind} (hm : m.IsIn s) (h : start ≤ m.index) :
    InOrder s start [⟨kind, m, m⟩] :=
  ⟨hm, hm, h, Nat.le_refl _, trivial⟩

/-- What a token in order is like. -/
theorem InOrder.of_mem {t : Token} (h : InOrder s start ts) (ht : t ∈ ts) :
    t.first.IsIn s ∧ t.last.IsIn s ∧ start ≤ t.first.index ∧ t.first.index ≤ t.last.index := by
  induction ts generalizing start with
  | nil => cases ht
  | cons u us ih =>
    obtain ⟨hfirst, hlast, hstart, hwidth, hrest⟩ := h
    rcases List.mem_cons.mp ht with rfl | ht
    · exact ⟨hfirst, hlast, hstart, hwidth⟩
    · obtain ⟨hfirst', hlast', hstart', hwidth'⟩ := ih hrest ht
      exact ⟨hfirst', hlast', by omega, hwidth'⟩

/-- **Of two tokens in order** the first ends before the second begins. -/
theorem InOrder.pairwise (h : InOrder s start ts) :
    ts.Pairwise fun t u => t.last.index ≤ u.first.index := by
  induction ts generalizing start with
  | nil => exact .nil
  | cons t ts ih =>
    have hrest := h.2.2.2.2
    exact List.pairwise_cons.mpr ⟨fun u hu => (hrest.of_mem hu).2.2.1, ih hrest⟩

end Tokens

/-! ### Layouts in order -/

namespace Layout

/-- Where the token belongs that may have to be put before what may turn out to be a key: not before
any that is waiting and ends after its mark, and not after any that begins before it. -/
structure HasPlace (s : String) (start : Nat) (l : Layout) (k : PossibleKey) : Prop where
  mark : k.mark.IsIn s
  reached : k.mark.index ≤ l.cursor.mark.index
  deep : k.depth ≤ l.depth
  least : l.number ≤ k.number
  most : k.number ≤ l.number + l.waiting.length
  before : endOf start (l.waiting.take (k.number - l.number)) ≤ k.mark.index
  after : InOrder s k.mark.index (l.waiting.drop (k.number - l.number))

/-- A layout after tokens that end at a place: the tokens that wait are in order and end before the
cursor, and what may turn out to be a key has its place among them, the one deeper in brackets the
later one. -/
structure Follows (s : String) (start : Nat) (l : Layout) : Prop where
  cursor : l.cursor.IsIn s
  waiting : InOrder s start l.waiting
  ends : endOf start l.waiting ≤ l.cursor.mark.index
  places : ∀ k ∈ l.keys, HasPlace s start l k
  nested : l.keys.Pairwise fun k k' =>
    k'.depth < k.depth ∧ k'.number ≤ k.number ∧ k'.mark.index ≤ k.mark.index

section Steps

variable {s : String} {start : Nat} {l : Layout} {k : PossibleKey} {c d : Cursor} {t : Token}

theorem HasPlace.le_length (h : HasPlace s start l k) :
    k.number - l.number ≤ l.waiting.length := by
  have hmost := h.most
  omega

theorem follows_ofString (s : String) : Follows s 0 (Layout.ofString s) where
  cursor := Cursor.Reaches.refl _
  waiting := trivial
  ends := Nat.le_refl _
  places := by simp [Layout.ofString]
  nested := .nil

/-- Whether a key may begin and which collections there are has no part in the order. -/
theorem Follows.with (h : Follows s start l) (allowed : Bool) (columns : List Nat) :
    Follows s start { l with keyAllowed := allowed, columns } where
  cursor := h.cursor
  waiting := h.waiting
  ends := h.ends
  places k hk := { h.places k hk with }
  nested := h.nested

/-- The cursor goes on. -/
theorem Follows.move (h : Follows s start l) (hc : l.cursor.Reaches c) :
    Follows s start { l with cursor := c } where
  cursor := h.cursor.trans hc
  waiting := h.waiting
  ends := Nat.le_trans h.ends hc.index_le
  places k hk := { h.places k hk with reached := Nat.le_trans (h.places k hk).reached hc.index_le }
  nested := h.nested

/-- Possible keys are given up. -/
theorem Follows.filter (h : Follows s start l) (p : PossibleKey → Bool) :
    Follows s start { l with keys := l.keys.filter p } where
  cursor := h.cursor
  waiting := h.waiting
  ends := h.ends
  places k hk := { h.places k (List.mem_filter.mp hk).1 with }
  nested := h.nested.filter p

theorem Follows.dropKeys (h : Follows s start l) : Follows s start { l with keys := [] } where
  cursor := h.cursor
  waiting := h.waiting
  ends := h.ends
  places := by simp
  nested := .nil

/-- The depth in brackets is another, no key being deeper. -/
theorem Follows.within (h : Follows s start l) {depth : Nat}
    (hkeys : ∀ k ∈ l.keys, k.depth ≤ depth) :
    Follows s start { l with depth } where
  cursor := h.cursor
  waiting := h.waiting
  ends := h.ends
  places k hk := { h.places k hk with deep := hkeys k hk }
  nested := h.nested

/-- A token is added that begins at the cursor and ends at the next one. -/
theorem Follows.push (h : Follows s start l) (hfirst : t.first = l.cursor.mark)
    (hc : l.cursor.Reaches c) (hlast : t.last = c.mark) (hd : c.Reaches d) :
    Follows s start { l.push t with cursor := d } where
  cursor := (h.cursor.trans hc).trans hd
  waiting := by
    refine inOrder_append.mpr ⟨h.waiting, ?_⟩
    rw [InOrder, hfirst, hlast]
    exact ⟨h.cursor.mark, (h.cursor.trans hc).mark, h.ends, hc.index_le, trivial⟩
  ends := by
    show endOf start (l.waiting ++ [t]) ≤ _
    rw [endOf_append, endOf, endOf, hlast]
    exact hd.index_le
  places k hk := by
    have hplace := h.places k hk
    have hlength := hplace.le_length
    have hcd := (hc.trans hd).index_le
    exact {
      mark := hplace.mark
      reached := Nat.le_trans hplace.reached hcd
      deep := hplace.deep
      least := hplace.least
      most := by
        have hmost := hplace.most
        show k.number ≤ l.number + (l.waiting ++ [t]).length
        rw [List.length_append]
        omega
      before := by
        show endOf start ((l.waiting ++ [t]).take (k.number - l.number)) ≤ _
        rw [List.take_append_of_le_length hlength]
        exact hplace.before
      after := by
        show InOrder s k.mark.index ((l.waiting ++ [t]).drop (k.number - l.number))
        rw [List.drop_append_of_le_length hlength, inOrder_append, InOrder, hfirst, hlast]
        exact ⟨hplace.after, h.cursor.mark, (h.cursor.trans hc).mark,
          endOf_drop_le h.ends hplace.reached, hc.index_le, trivial⟩ }
  nested := h.nested

theorem Follows.pushTo (h : Follows s start l) (kind : Token.Kind) (hc : l.cursor.Reaches c) :
    Follows s start (l.pushTo kind c) :=
  h.push rfl hc rfl (Cursor.Reaches.refl c)

theorem Follows.pushMark (h : Follows s start l) (kind : Token.Kind) :
    Follows s start (l.pushMark kind l.cursor.mark) :=
  h.pushTo kind (Cursor.Reaches.refl _)

/-- Tokens of no width are added at the cursor. -/
theorem Follows.pushMarks {α : Type} (h : Follows s start l) (kind : Token.Kind) (xs : List α) :
    Follows s start
      { l with waiting := l.waiting ++ xs.map fun _ => ⟨kind, l.cursor.mark, l.cursor.mark⟩ } := by
  induction xs generalizing l with
  | nil => simpa using h
  | cons x xs ih => simpa [Layout.pushMark, Layout.push] using ih (h.pushMark kind)

/-- What may turn out to be a key is noted at the cursor, at the place of the next token. -/
theorem Follows.save (h : Follows s start l) (hkeys : ∀ k ∈ l.keys, k.depth < l.depth)
    (hdepth : k.depth = l.depth) (hnumber : k.number = l.number + l.waiting.length)
    (hmark : k.mark = l.cursor.mark) : Follows s start { l with keys := k :: l.keys } where
  cursor := h.cursor
  waiting := h.waiting
  ends := h.ends
  places k' hk' := by
    rcases List.mem_cons.mp hk' with rfl | hk'
    · have hplace : k'.number - l.number = l.waiting.length := by omega
      exact {
        mark := hmark ▸ h.cursor.mark
        reached := Nat.le_of_eq (by rw [hmark])
        deep := Nat.le_of_eq hdepth
        least := by show l.number ≤ _; omega
        most := Nat.le_of_eq hnumber
        before := by
          show endOf start (l.waiting.take (k'.number - l.number)) ≤ _
          rw [hplace, List.take_length, hmark]
          exact h.ends
        after := by
          show InOrder s k'.mark.index (l.waiting.drop (k'.number - l.number))
          rw [hplace, List.drop_length]
          trivial }
    · exact { h.places k' hk' with }
  nested := by
    refine List.pairwise_cons.mpr ⟨fun k' hk' => ?_, h.nested⟩
    have hplace := h.places k' hk'
    exact ⟨hdepth ▸ hkeys k' hk', hnumber ▸ hplace.most, hmark ▸ hplace.reached⟩

/-! ### Steps -/

theorem Follows.dropStale (h : Follows s start l) : GivesAs (Follows s start) l.dropStale := by
  unfold Layout.dropStale
  simp [h.filter]

/-- The possible key at a depth is given up, so the others are less deep. -/
theorem Follows.dropKey (h : Follows s start l) :
    GivesAs (fun l' => Follows s start l' ∧ l'.cursor = l.cursor ∧ l'.depth = l.depth ∧
      l'.number = l.number ∧ l'.waiting = l.waiting ∧ ∀ k ∈ l'.keys, k.depth < l.depth)
    l.dropKey := by
  unfold Layout.dropKey
  simp only [givesAs_ite, givesAs_error, givesAs_ok, implies_true, true_and]
  refine fun _ => ⟨h.filter _, fun k hk => ?_⟩
  obtain ⟨hk, hdepth⟩ := List.mem_filter.mp hk
  have hdeep := (h.places k hk).deep
  have hne : k.depth ≠ l.depth := by simpa using hdepth
  omega

theorem Follows.saveKey (h : Follows s start l) : GivesAs (Follows s start) l.saveKey := by
  unfold Layout.saveKey
  simp only [givesAs_ite, givesAs_pure, h, implies_true, and_true]
  refine fun _ => givesAs_bind h.dropKey ?_
  rintro l' ⟨h', hcursor, hdepth, hnumber, hwaiting, hkeys⟩
  refine givesAs_pure.mpr (h'.save (hdepth ▸ hkeys) hdepth.symm ?_ (by rw [hcursor]))
  rw [hnumber, hwaiting]

theorem Follows.unwindTo (h : Follows s start l) (column : Nat) :
    Follows s start (l.unwindTo column) :=
  (h.pushMarks .blockEnd _).with l.keyAllowed _

theorem Follows.unwind (h : Follows s start l) : Follows s start l.unwind := by
  unfold Layout.unwind
  split
  · exact h
  · exact h.unwindTo _

theorem Follows.unwindAll (h : Follows s start l) : Follows s start l.unwindAll := by
  unfold Layout.unwindAll
  split
  · exact h
  · exact (h.pushMarks .blockEnd l.columns).with l.keyAllowed []

theorem Follows.openHere (h : Follows s start l) (kind : Token.Kind) :
    Follows s start (l.openHere kind) := by
  unfold Layout.openHere
  split
  · exact (h.pushMark kind).with l.keyAllowed _
  · exact h

/-- Blanks and comments move the cursor, and a line break may allow a key. -/
theorem skipBlank_eq (l : Layout) : ∃ c allowed, l.cursor.Reaches c ∧
    l.skipBlank = { l with cursor := c, keyAllowed := allowed } := by
  fun_induction skipBlank l with
  | case1 l c hbreak =>
    exact ⟨_, l.keyAllowed, (Cursor.reaches_skipSpaces _).trans (Cursor.reaches_skipComment _), rfl⟩
  | case2 l c b d hbreak _ ih =>
    obtain ⟨e, allowed, he, heq⟩ := ih
    have hd := ((Cursor.reaches_skipSpaces l.cursor).trans (Cursor.reaches_skipComment _)).trans
      (Cursor.reaches_lineBreak hbreak)
    exact ⟨e, allowed, hd.trans he, heq⟩
  | case3 l c b d hbreak _ =>
    exact ⟨d, l.keyAllowed, ((Cursor.reaches_skipSpaces l.cursor).trans
      (Cursor.reaches_skipComment _)).trans (Cursor.reaches_lineBreak hbreak), rfl⟩

theorem Follows.skipBlank (h : Follows s start l) : Follows s start l.skipBlank := by
  obtain ⟨c, allowed, hc, heq⟩ := skipBlank_eq l
  rw [heq]
  exact (h.move hc).with allowed l.columns

theorem Follows.skipOrderMark (h : Follows s start l) : Follows s start l.skipOrderMark := by
  unfold Layout.skipOrderMark
  split
  · exact h.move (Cursor.reaches_advance _)
  · exact h

theorem Follows.openItem (h : Follows s start l) (kind : Token.Kind) :
    GivesAs (Follows s start) (l.openItem kind) := by
  unfold Layout.openItem
  simp [h, h.openHere]

theorem Follows.separate (h : Follows s start l) : GivesAs (Follows s start) l.separate :=
  givesAs_bind h.unwindAll.dropKey fun l' h' => givesAs_pure.mpr (h'.1.with false l'.columns)

theorem Follows.addDirective (h : Follows s start l) :
    GivesAs (Follows s start) l.addDirective := by
  refine givesAs_bind h.separate fun l' h' => ?_
  refine givesAs_bind (reaches_directive l'.cursor) ?_
  rintro ⟨t, d⟩ ⟨hfirst, c, hc, hlast, hd⟩
  exact givesAs_pure.mpr (h'.push hfirst hc hlast hd)

theorem Follows.addSeparator (h : Follows s start l) (kind : Token.Kind) :
    GivesAs (Follows s start) (l.addSeparator kind) :=
  givesAs_bind h.separate fun l' h' =>
    givesAs_pure.mpr (h'.pushTo kind (Cursor.reaches_advanceBy 3 l'.cursor))

theorem Follows.addOpening (h : Follows s start l) (kind : Token.Kind) :
    GivesAs (Follows s start) (l.addOpening kind) := by
  refine givesAs_bind h.saveKey fun l' h' => givesAs_pure.mpr ?_
  have hdeep : Follows s start { l' with depth := l'.depth + 1, keyAllowed := true } :=
    (h'.within fun k hk => Nat.le_succ_of_le (h'.places k hk).deep).with true l'.columns
  exact hdeep.pushTo kind (Cursor.reaches_advance _)

theorem Follows.addClosing (h : Follows s start l) (kind : Token.Kind) :
    GivesAs (Follows s start) (l.addClosing kind) := by
  refine givesAs_bind h.dropKey ?_
  rintro l' ⟨h', -, hdepth, -, -, hkeys⟩
  refine givesAs_pure.mpr ?_
  have hless : ∀ k ∈ l'.keys, k.depth ≤ l'.depth - 1 := fun k hk => by
    have hk := hkeys k hk
    omega
  have hout : Follows s start { l' with depth := l'.depth - 1, keyAllowed := false } :=
    (h'.within hless).with false l'.columns
  exact hout.pushTo kind (Cursor.reaches_advance _)

theorem Follows.addComma (h : Follows s start l) : GivesAs (Follows s start) l.addComma :=
  givesAs_bind h.dropKey fun l' h' =>
    givesAs_pure.mpr ((h'.1.with true l'.columns).pushTo _ (Cursor.reaches_advance _))

/-- A mark of structure that is no longer a possible key's. -/
theorem Follows.addMark (h : Follows s start l) (allowed : Bool) (kind : Token.Kind) :
    GivesAs (Follows s start) (do
      let l' ← { l with keyAllowed := allowed }.dropKey
      pure (l'.pushTo kind l'.cursor.advance)) :=
  givesAs_bind (h.with allowed l.columns).dropKey fun _ h' =>
    givesAs_pure.mpr (h'.1.pushTo kind (Cursor.reaches_advance _))

theorem Follows.addDash (h : Follows s start l) : GivesAs (Follows s start) l.addDash :=
  givesAs_bind (h.openItem _) fun _ h' => h'.addMark true .dash

theorem Follows.addKey (h : Follows s start l) : GivesAs (Follows s start) l.addKey :=
  givesAs_bind (h.openItem _) fun l' h' => h'.addMark (!l'.inFlow) .key

theorem Follows.addWord (h : Follows s start l)
    {read : Cursor → Except Failure (Token.Kind × Cursor)} (hread : ∀ c, Advances c (read c)) :
    GivesAs (Follows s start) (l.addWord read) := by
  refine givesAs_bind h.saveKey fun l' h' => ?_
  refine givesAs_bind (hread l'.cursor) fun r hr => givesAs_pure.mpr ?_
  exact (h'.with false l'.columns).pushTo r.1 hr

theorem Follows.addPlain (h : Follows s start l) : GivesAs (Follows s start) l.addPlain :=
  givesAs_bind h.saveKey fun l' h' =>
    givesAs_pure.mpr ((h'.with _ l'.columns).pushTo _ (reaches_plain _ _ _))

theorem Follows.addBlock (h : Follows s start l) (fold : Bool) :
    GivesAs (Follows s start) (l.addBlock fold) := by
  refine givesAs_bind (h.with true l.columns).dropKey fun l' h' => ?_
  refine givesAs_bind (advances_block fold (max 1 l'.least) l'.cursor) fun r hr => ?_
  exact givesAs_pure.mpr (h'.1.pushTo _ hr)

theorem Follows.finish (h : Follows s start l) : GivesAs (Follows s start) l.finish := by
  refine givesAs_bind h.unwindAll.dropKey fun l' h' => givesAs_pure.mpr ?_
  exact (h'.1.with false l'.columns).dropKeys.pushMark .endOfInput

/-- The tokens that are put before what turned out to be a key have no width and stand at its mark,
so they fit in wherever the tokens before them end by there. -/
theorem withKey_eq (hmark : k.mark.IsIn s) (l : Layout) (opens : Bool) : ∃ put : List Token,
    (∀ bound, bound ≤ k.mark.index → InOrder s bound put ∧ endOf bound put ≤ k.mark.index) ∧
      l.withKey k opens =
        l.waiting.take (k.number - l.number) ++ (put ++ l.waiting.drop (k.number - l.number)) := by
  cases opens with
  | true =>
    refine ⟨[⟨.mappingStart, k.mark, k.mark⟩, ⟨.key, k.mark, k.mark⟩], fun bound hbound => ?_, ?_⟩
    · exact ⟨⟨hmark, hmark, hbound, Nat.le_refl _, inOrder_mark hmark (Nat.le_refl _)⟩,
        Nat.le_refl _⟩
    · simp [Layout.withKey]
  | false =>
    refine ⟨[⟨.key, k.mark, k.mark⟩], fun bound hbound => ?_, ?_⟩
    · exact ⟨inOrder_mark hmark hbound, Nat.le_refl _⟩
    · simp [Layout.withKey]

/-- **A key token is put before what turned out to be a key**: the tokens are in order, and the
other possible keys have their places. -/
theorem Follows.withKey (h : Follows s start l) (hk : k ∈ l.keys)
    (hother : ∀ k' ∈ l.keys, k'.depth ≠ l.depth →
      k'.number ≤ k.number ∧ k'.mark.index ≤ k.mark.index)
    (opens : Bool) :
    Follows s start { l with
      keys := l.keys.filter fun k' => k'.depth != l.depth
      waiting := l.withKey k opens } := by
  have hplace := h.places k hk
  have hplaced := hplace.le_length
  obtain ⟨put, hput, hwaiting⟩ := withKey_eq hplace.mark l opens
  have hsplit := List.take_append_drop (k.number - l.number) l.waiting
  have hbefore : InOrder s start (l.waiting.take (k.number - l.number)) := by
    have hordered := h.waiting
    rw [← hsplit, inOrder_append] at hordered
    exact hordered.1
  obtain ⟨hfits, hends⟩ := hput _ hplace.before
  rw [hwaiting]
  exact {
    cursor := h.cursor
    waiting := inOrder_append.mpr
      ⟨hbefore, inOrder_append.mpr ⟨hfits, hplace.after.mono hends⟩⟩
    ends := by
      show endOf start (_ ++ (put ++ _)) ≤ _
      rw [endOf_append, endOf_append]
      exact endOf_drop_le h.ends (Nat.le_trans hends hplace.reached)
    places := by
      -- another possible key comes no later, so the tokens are put in behind its place
      intro k' hk'
      obtain ⟨hk', hdepth⟩ := List.mem_filter.mp hk'
      obtain ⟨hnumber, hmark⟩ := hother k' hk' (by simpa using hdepth)
      have hplace' := h.places k' hk'
      have hearlier : k'.number - l.number ≤ (l.waiting.take (k.number - l.number)).length := by
        rw [List.length_take]
        omega
      obtain ⟨hfits', hends'⟩ :=
        hput _ (endOf_drop_le (n := k'.number - l.number) hplace.before hmark)
      refine { hplace' with most := ?_, before := ?_, after := ?_ }
      · show k'.number ≤ l.number + (_ ++ (put ++ _)).length
        rw [List.length_append]
        have hleast := hplace'.least
        omega
      · show endOf start ((_ ++ (put ++ _)).take (k'.number - l.number)) ≤ _
        rw [List.take_append_of_le_length hearlier, List.take_take, Nat.min_eq_left (by omega)]
        exact hplace'.before
      · show InOrder s k'.mark.index ((_ ++ (put ++ _)).drop (k'.number - l.number))
        have hafter := hplace'.after
        rw [← hsplit, List.drop_append_of_le_length hearlier, inOrder_append] at hafter
        rw [List.drop_append_of_le_length hearlier]
        exact inOrder_append.mpr
          ⟨hafter.1, inOrder_append.mpr ⟨hfits', hplace.after.mono hends'⟩⟩
    nested := h.nested.filter _ }

/-- A possible key is the deepest if it is as deep as the layout. -/
theorem Follows.deepest (h : Follows s start l) (hk : k ∈ l.keys) (hdepth : k.depth = l.depth) :
    ∀ k' ∈ l.keys, k'.depth ≠ l.depth → k'.number ≤ k.number ∧ k'.mark.index ≤ k.mark.index := by
  intro k' hk' hne
  have hdeep := (h.places k' hk').deep
  have hnested := h.nested
  obtain ⟨inner, outer, hkeys⟩ := List.append_of_mem hk
  rw [hkeys] at hnested hk'
  obtain ⟨-, houter, hinner⟩ := List.pairwise_append.mp hnested
  rcases List.mem_append.mp hk' with hk' | hk'
  · -- one that is noted later is deeper
    have hless := (hinner k' hk' k List.mem_cons_self).1
    omega
  · rcases List.mem_cons.mp hk' with rfl | hk'
    · exact absurd hdepth hne
    · exact ((List.pairwise_cons.mp houter).1 k' hk').2

theorem Follows.addValue (h : Follows s start l) : GivesAs (Follows s start) l.addValue := by
  unfold Layout.addValue
  split
  · rename_i k hfind
    have hk := List.mem_of_find?_eq_some hfind
    have hdepth : k.depth = l.depth := by simpa using List.find?_some hfind
    have hkey := h.withKey hk (h.deepest hk hdepth) (!l.inFlow && l.opensAt k.mark.column)
    exact givesAs_ok.mpr ((hkey.with false _).pushTo .value (Cursor.reaches_advance _))
  · exact givesAs_bind (h.openItem _) fun l' h' => h'.addMark (!l'.inFlow) .value

/-- **Adding the token that begins with a character** keeps the order. -/
theorem Follows.add (h : Follows s start l) (x : Char) : GivesAs (Follows s start) (l.add x) := by
  have hword : ∀ kind : String → Token.Kind, ∀ c, Advances c
      ((name endsAnchor c.advance).map fun r => (kind r.1, r.2)) := fun kind c =>
    Advances.map (Advances.trans (Cursor.reaches_advance c) (advances_name _ _))
  unfold Layout.add
  simp only [givesAs_ite, givesAs_error, h.addDirective, h.addSeparator, h.addOpening, h.addClosing,
    h.addComma, h.addDash, h.addKey, h.addValue, h.addPlain, h.addBlock, implies_true, and_true,
    true_and]
  have halias : GivesAs (Follows s start) l.addAlias := h.addWord (hword .alias)
  have hanchor : GivesAs (Follows s start) l.addAnchor := h.addWord (hword .anchor)
  have htag : GivesAs (Follows s start) l.addTag :=
    h.addWord fun c => Advances.map (advances_writtenTag c)
  have hquoted (double : Bool) : GivesAs (Follows s start) (l.addQuoted double) :=
    h.addWord fun c => Advances.map (f := fun cs => Token.Kind.scalar (String.ofList cs) false)
      (advances_quoted double c)
  simp only [halias, hanchor, htag, hquoted, implies_true, and_true]

theorem Follows.next (h : Follows s start l) : GivesAs (fun r => Follows s start r.1) l.next := by
  unfold Layout.next
  refine givesAs_bind h.skipOrderMark.skipBlank.dropStale fun l' h' => ?_
  dsimp only
  split
  · exact givesAs_map.mpr h'.unwind.finish
  · exact givesAs_map.mpr (h'.unwind.add _)

end Steps

/-! ### Runs -/

section Runs

variable {s : String} {start n : Nat} {l : Layout} {keys : List PossibleKey} {ts : List Token}

/-- The tokens that are settled come before every one that may turn out to be a key. -/
theorem settled_le (keys : List PossibleKey) (number : Nat) (ts : List Token) :
    settled keys number ts ≤ ts.length ∧
      ∀ k ∈ keys, number ≤ k.number → number + settled keys number ts ≤ k.number := by
  induction ts generalizing number with
  | nil => exact ⟨Nat.le_refl _, fun k _ h => h⟩
  | cons t ts ih =>
    rw [settled]
    split
    · exact ⟨Nat.zero_le _, fun k _ h => h⟩
    · rename_i hnone
      obtain ⟨hlength, hkeys⟩ := ih (number + 1)
      refine ⟨Nat.succ_le_succ hlength, fun k hk hle => ?_⟩
      have hne : k.number ≠ number := by
        intro heq
        exact hnone (List.any_eq_true.mpr ⟨k, hk, by simp [heq]⟩)
      have hrest := hkeys k hk (by omega)
      omega

/-- The tokens that no longer wait are in order, and the layout without them follows them. -/
theorem Follows.release (h : Follows s start l) :
    InOrder s start l.release.1 ∧ Follows s (endOf start l.release.1) l.release.2 := by
  obtain ⟨hlength, hsettled⟩ := settled_le l.keys l.number l.waiting
  have hsplit := List.take_append_drop (settled l.keys l.number l.waiting) l.waiting
  have hordered := h.waiting
  have hends := h.ends
  rw [← hsplit, inOrder_append] at hordered
  rw [← hsplit, endOf_append] at hends
  refine ⟨hordered.1, ⟨h.cursor, hordered.2, hends, fun k hk => ?_, h.nested⟩⟩
  have hplace := h.places k hk
  have hleast := hsettled k hk hplace.least
  have hmost := hplace.most
  have hnumber : k.number - l.number = settled l.keys l.number l.waiting +
      (k.number - (l.number + settled l.keys l.number l.waiting)) := by omega
  refine { hplace with least := hleast, most := ?_, before := ?_, after := ?_ }
  · show k.number ≤ l.number + settled l.keys l.number l.waiting + (l.waiting.drop _).length
    rw [List.length_drop]
    omega
  · have hbefore := hplace.before
    rw [hnumber, List.take_add, endOf_append] at hbefore
    exact hbefore
  · have hafter := hplace.after
    rw [hnumber, ← List.drop_drop] at hafter
    exact hafter

/-- **The tokens from a layout on** are in order. -/
theorem Follows.run (h : Follows s start l) : InOrder s start l.run.1 := by
  -- the tokens of the rest follow those that are ready, of which the layout holds the end
  fun_induction Layout.run l generalizing start with
  | case1 => trivial
  | case2 l l' hnext => exact (h.next _ hnext).waiting
  | case3 => trivial
  | case4 l l' hnext l'' hstale ready rest hrelease _ more e hmore ih =>
    have hready := ((h.next _ hnext).dropStale _ hstale).release
    rw [hrelease] at hready
    have hrest := ih hready.2
    rw [hmore] at hrest
    exact inOrder_append.mpr ⟨hready.1, hrest⟩
  | case5 l l' hnext l'' hstale ready rest hrelease _ =>
    have hready := ((h.next _ hnext).dropStale _ hstale).release
    rw [hrelease] at hready
    exact hready.1

end Runs

end Layout

/-- **The tokens of a text** stand in it in their order. -/
theorem tokens_inOrder (s : String) : InOrder s 0 (tokens s).1 :=
  (Layout.follows_ofString s).run

end ApiSuite.Yaml
