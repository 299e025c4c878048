import ApiSuite.Proofs.Yaml.Reach
import ApiSuite.Proofs.Yaml.Reading
import ApiSuite.Traced
import Mathlib.Data.List.Forall2

/-!
# Frames within an entry

The outermost mapping of a document, if it is written as a block, is written entry by entry: the
mark of a key, the tokens of the key, the mark of the value and the tokens of the value. Where an
entry ends can be told from the tokens alone, by counting what is opened and closed
(`ApiSuite.Yaml.blockEntries`).

The invariant that tells how nodes are assembled of these tokens is about the stack of frames. At
its bottom is the outermost mapping, which is between two entries, between a key and its value, or
waits for either (`ApiSuite.Yaml.Stack`); above it are frames that all stand for what is begun
within one entry, as many as are open in the tokens. A stack that waits for a node
(`ApiSuite.Yaml.Waits`) is where a node can be delivered. This file shows for each frame within an
entry that the invariant is kept when it takes a token or makes way for others
(`ApiSuite.Yaml.Waits.offer`).
-/

namespace ApiSuite.Yaml

/-! ### The tokens of entries -/

/-- Whether a token begins something that another one ends. -/
def Token.Kind.opens : Token.Kind → Bool
  | .sequenceStart | .mappingStart | .listOpen | .braceOpen => true
  | _ => false

/-- Whether a token ends something. -/
def Token.Kind.closes : Token.Kind → Bool
  | .blockEnd | .listClose | .braceClose => true
  | _ => false

/-- Whether a token is an alias. -/
def Token.isAlias (t : Token) : Bool :=
  match t.kind with
  | .alias _ => true
  | _ => false

/-- Whether a token may stand before the outermost node of a document. -/
def Token.isPreamble (t : Token) : Bool :=
  match t.kind with
  | .version _ | .handle _ _ | .directive | .documentStart | .anchor _ | .tag _ => true
  | _ => false

/-- The tokens of an entry: the mark of its key, the tokens up to the mark of its value, and those
after that if the value is marked. -/
structure EntryTokens where
  mark : Token
  key : List Token
  value : Option (List Token)

namespace EntryTokens

/-- All of the tokens but the mark of the value. -/
def all (e : EntryTokens) : List Token := e.mark :: (e.key ++ e.value.getD [])

/-- The entry with one more token. -/
def grow (t : Token) (e : EntryTokens) : EntryTokens :=
  match e.value with
  | none => { e with key := e.key ++ [t] }
  | some ts => { e with value := some (ts ++ [t]) }

/-- Whether the key is an alias. -/
def isAliased (e : EntryTokens) : Bool :=
  match e.key with
  | t :: _ => t.isAlias
  | [] => false

/-- A place is one where a token of the entry begins or ends. -/
def Holds (e : EntryTokens) (m : Mark) : Prop := ∃ t ∈ e.all, m = t.first ∨ m = t.last

/-- A key is an alias, or stands where a token of the key begins or ends. -/
def HasKey (e : EntryTokens) (k : Node) : Prop :=
  e.isAliased = true ∨ (∀ isMap o, k ≠ .cycle isMap o) ∧
    ∃ t ∈ e.mark :: e.key, k.mark = t.first ∨ k.mark = t.last

end EntryTokens

/-- The entries of a mapping as far as their tokens have been read. -/
structure Outline where
  done : List EntryTokens
  current : Option EntryTokens

namespace Outline

/-- No entries. -/
def empty : Outline := ⟨[], none⟩

/-- The entries. -/
def entries (b : Outline) : List EntryTokens := b.done ++ b.current.toList

/-- The entries with one more token, given how much is open at it within the mapping. -/
def add (depth : Nat) (t : Token) (b : Outline) : Outline :=
  if depth == 0 && t.kind == .key then ⟨b.entries, some ⟨t, [], none⟩⟩
  else if depth == 0 && t.kind == .value then
    { b with current := b.current.map fun e => { e with value := some [] } }
  else { b with current := b.current.map (·.grow t) }

end Outline

/-- How much is open after a token. -/
def depthAfter (t : Token) (depth : Nat) : Nat :=
  if t.kind.opens then depth + 1 else if t.kind.closes then depth - 1 else depth

/-- The entries of a mapping after further tokens, up to the one that ends it. -/
def outlineFrom (depth : Nat) (b : Outline) : List Token → Outline
  | [] => b
  | t :: ts =>
    if depth == 0 && t.kind.closes then b else outlineFrom (depthAfter t depth) (b.add depth t) ts

/-- The entries of a document of which the outermost node is a mapping written as a block. -/
def blockEntries (ts : List Token) : Option (List EntryTokens) :=
  match ts.dropWhile Token.isPreamble with
  | t :: body => if t.kind == .mappingStart then some (outlineFrom 0 .empty body).entries else none
  | [] => none

namespace EntryTokens

variable {e : EntryTokens} {m : Mark} {k : Node}

@[simp] theorem all_grow (t : Token) (e : EntryTokens) : (e.grow t).all = e.all ++ [t] := by
  unfold grow
  cases hvalue : e.value <;> simp [all, hvalue]

theorem Holds.grow (h : e.Holds m) (t : Token) : (e.grow t).Holds m := by
  obtain ⟨u, hu, hm⟩ := h
  exact ⟨u, by simp [hu], hm⟩

theorem holds_first (e : EntryTokens) (t : Token) : (e.grow t).Holds t.first :=
  ⟨t, by simp, .inl rfl⟩

theorem HasKey.grow (h : e.HasKey k) (t : Token) : (e.grow t).HasKey k := by
  have hkey : ∃ more, (e.grow t).key = e.key ++ more ∧ (e.grow t).mark = e.mark := by
    unfold EntryTokens.grow
    cases e.value with
    | none => exact ⟨[t], rfl, rfl⟩
    | some ts => exact ⟨[], (List.append_nil _).symm, rfl⟩
  obtain ⟨more, hmore, hmark⟩ := hkey
  rcases h with halias | ⟨hcycle, u, hu, hm⟩
  · left
    unfold isAliased at halias ⊢
    rw [hmore]
    cases hkeys : e.key with
    | nil => simp [hkeys] at halias
    | cons u us => simpa [hkeys] using halias
  · refine .inr ⟨hcycle, u, ?_, hm⟩
    rw [hmark, hmore]
    rcases List.mem_cons.mp hu with rfl | hu
    · exact List.mem_cons_self
    · exact List.mem_cons_of_mem _ (List.mem_append_left _ hu)

/-- Before its value is marked, an entry has a key that stands where one of its tokens does. -/
theorem Holds.hasKey (h : e.Holds k.mark) (hvalue : e.value = none)
    (hcycle : ∀ isMap o, k ≠ .cycle isMap o) : e.HasKey k := by
  obtain ⟨u, hu, hm⟩ := h
  refine .inr ⟨hcycle, u, ?_, hm⟩
  simpa [all, hvalue] using hu

@[simp] theorem value_grow (e : EntryTokens) (t : Token) :
    (e.grow t).value = none ↔ e.value = none := by
  unfold grow
  cases hvalue : e.value <;> simp

end EntryTokens

/-! ### Frames within an entry -/

namespace Frame

/-- How much a frame adds to what is open in the tokens. -/
def height : Frame → Nat
  | .content | .node _ _ => 0
  | .items style _ _ | .item style _ _ _ => if style = .unindented then 0 else 1
  | .entries style _ _ | .key style _ _ _ | .keyed style _ _ _ | .value style _ _ _ _ =>
    if style = .single then 0 else 1
  | .entry _ _ | .bareKey _ _ | .bareEnd _ _ _ => 1

/-- The place where what a frame stands for begins. -/
def mark? : Frame → Option Mark
  | .content => none
  | .node _ p => p.mark
  | .items _ o _ | .item _ o _ _ | .entries _ o _ | .entry o _ | .key _ o _ _ | .bareKey o _
  | .bareEnd o _ _ | .keyed _ o _ _ | .value _ o _ _ _ => some o.mark

/-- Whether a frame stands for a mapping without marks of its own, which is an item in brackets. -/
def isSingle : Frame → Bool
  | .entries style _ _ | .key style _ _ _ | .keyed style _ _ _ | .value style _ _ _ _ =>
    style == .single
  | _ => false

/-- Whether a frame waits for a node. -/
def awaits : Frame → Bool
  | .item _ _ _ _ | .key _ _ _ _ | .bareKey _ _ | .value _ _ _ _ _ => true
  | _ => false

/-- A frame stands for something begun within an entry, given how much is open below it. -/
structure Within (e : EntryTokens) (depth : Nat) (f : Frame) : Prop where
  mark : ∃ m, f.mark? = some m ∧ e.Holds m
  single : f.isSingle = true → 0 < depth

theorem Within.grow {e : EntryTokens} {depth : Nat} {f : Frame} (h : f.Within e depth) (t : Token) :
    f.Within (e.grow t) depth := by
  obtain ⟨m, hm, hholds⟩ := h.mark
  exact ⟨⟨m, hm, hholds.grow t⟩, h.single⟩

end Frame

/-- Nodes are the keys of entries, one by one. -/
def AreKeys (es : List EntryTokens) (done : List (Node × Node)) : Prop :=
  List.Forall₂ (fun e n => e.HasKey n.1) es done

section Stacks

variable {o : Opening} {tail : List Frame} {es : List EntryTokens} {e : EntryTokens} {b : Outline}
  {d D : Nat} {f g : Frame} {fs : List Frame} {t : Token} {n : Node} {a c : Assembly} {m : Mark}

/-- A stack of frames over the outermost mapping that waits for a node, given the entries before and
the one that is read, and how much is open in the tokens. -/
inductive Waits (o : Opening) (tail : List Frame) (es : List EntryTokens) (e : EntryTokens) :
    Nat → List Frame → Prop
  | key {done : List (Node × Node)} {m : Mark} (hvalue : e.value = none) (hdone : AreKeys es done) :
    Waits o tail es e 0 (.key .block o done m :: tail)
  | value {done : List (Node × Node)} {k : Node} {m : Mark} (hk : e.HasKey k)
    (hdone : AreKeys es done) : Waits o tail es e 0 (.value .block o done k m :: tail)
  | inner {f : Frame} {fs : List Frame} {d D : Nat} (hf : f.Within e d) (hawaits : f.awaits = true)
    (hw : Waits o tail es e d fs) (hD : D = d + f.height) : Waits o tail es e D (f :: fs)

/-- A stack of frames over the outermost mapping, given the entries as far as they have been read
and how much is open in the tokens. -/
inductive Stack (o : Opening) (tail : List Frame) : Outline → Nat → List Frame → Prop
  | entries {b : Outline} {done : List (Node × Node)} (hdone : AreKeys b.entries done) :
    Stack o tail b 0 (.entries .block o done :: tail)
  | key {es : List EntryTokens} {e : EntryTokens} {done : List (Node × Node)} {m : Mark}
    (hvalue : e.value = none) (hkey : e.key = []) (hm : e.Holds m) (hdone : AreKeys es done) :
    Stack o tail ⟨es, some e⟩ 0 (.key .block o done m :: tail)
  | keyed {es : List EntryTokens} {e : EntryTokens} {done : List (Node × Node)} {k : Node}
    (hk : e.HasKey k) (hdone : AreKeys es done) :
    Stack o tail ⟨es, some e⟩ 0 (.keyed .block o done k :: tail)
  | value {es : List EntryTokens} {e : EntryTokens} {done : List (Node × Node)} {k : Node}
    {m : Mark} (hk : e.HasKey k) (hdone : AreKeys es done) :
    Stack o tail ⟨es, some e⟩ 0 (.value .block o done k m :: tail)
  | inner {es : List EntryTokens} {e : EntryTokens} {f : Frame} {fs : List Frame} {d D : Nat}
    (hf : f.Within e d) (hw : Waits o tail es e d fs) (hD : D = d + f.height) :
    Stack o tail ⟨es, some e⟩ D (f :: fs)

theorem AreKeys.concat {done : List (Node × Node)} (h : AreKeys es done) {k v : Node}
    (hk : e.HasKey k) : AreKeys (es ++ [e]) (done ++ [(k, v)]) :=
  List.rel_append h (.cons hk .nil)

theorem Waits.grow (h : Waits o tail es e d fs) (t : Token) : Waits o tail es (e.grow t) d fs := by
  induction h with
  | key hvalue hdone => exact .key ((e.value_grow t).mpr hvalue) hdone
  | value hk hdone => exact .value (hk.grow t) hdone
  | inner hf hawaits _ hD ih => exact .inner (hf.grow t) hawaits ih hD

/-- Delivering a node to a frame within an entry. -/
theorem Waits.deliver_inner (hf : f.Within e d) (hawaits : f.awaits = true)
    (hw : Waits o tail es e d fs) (ha : a.frames = f :: fs) (n : Node) :
    (a.deliver n).progress = a.progress ∧
      Stack o tail ⟨es, some e⟩ (d + f.height) (a.deliver n).frames := by
  obtain ⟨⟨m, hmark, hholds⟩, hsingle⟩ := hf
  unfold Assembly.deliver
  rw [ha]
  cases f with
  | item style o' done m' => exact ⟨rfl, .inner ⟨⟨m, hmark, hholds⟩, hsingle⟩ hw rfl⟩
  | key style o' done m' => exact ⟨rfl, .inner ⟨⟨m, hmark, hholds⟩, hsingle⟩ hw rfl⟩
  | bareKey o' done => exact ⟨rfl, .inner ⟨⟨m, hmark, hholds⟩, hsingle⟩ hw rfl⟩
  | value style o' done k m' => exact ⟨rfl, .inner ⟨⟨m, hmark, hholds⟩, hsingle⟩ hw rfl⟩
  | _ => cases hawaits

/-- **Delivering a node that stands in the entry** to a stack that waits for one. -/
theorem Waits.deliver (h : Waits o tail es e D a.frames) (hn : e.Holds n.mark)
    (hcycle : ∀ isMap o, n ≠ .cycle isMap o) :
    (a.deliver n).progress = a.progress ∧
      Stack o tail ⟨es, some e⟩ D (a.deliver n).frames := by
  generalize ha : a.frames = frames at h
  cases h with
  | key hvalue hdone =>
    unfold Assembly.deliver
    rw [ha]
    exact ⟨rfl, .keyed (hn.hasKey hvalue hcycle) hdone⟩
  | value hk hdone =>
    unfold Assembly.deliver
    rw [ha]
    exact ⟨rfl, .entries (hdone.concat hk)⟩
  | inner hf hawaits hw hD =>
    rw [hD]
    exact Waits.deliver_inner hf hawaits hw ha n

theorem Assembly.remember_frames (anchor : Option String) (n : Node) (a : Assembly) :
    (a.remember anchor n).frames = a.frames ∧ (a.remember anchor n).progress = a.progress := by
  unfold Assembly.remember
  cases anchor <;> exact ⟨rfl, rfl⟩

/-- The same for a node that may have a name. -/
theorem Waits.close (h : Waits o tail es e D a.frames) (hn : e.Holds n.mark)
    (anchor : Option String) (hcycle : ∀ isMap o, n ≠ .cycle isMap o) :
    (a.close anchor n).progress = a.progress ∧
      Stack o tail ⟨es, some e⟩ D (a.close anchor n).frames := by
  obtain ⟨hframes, hprogress⟩ := a.remember_frames anchor n
  rw [← hframes] at h
  rw [← hprogress]
  exact h.deliver hn hcycle

/-- **Delivering what an alias stands for**, the alias being the next token. -/
theorem Stack.deliver_alias (h : Stack o tail ⟨es, some e⟩ D (f :: fs)) (hawaits : f.awaits = true)
    (ha : a.frames = f :: fs) (ht : t.isAlias = true) (n : Node) :
    (a.deliver n).progress = a.progress ∧
      Stack o tail ⟨es, some (e.grow t)⟩ D (a.deliver n).frames := by
  cases h with
  | entries => cases hawaits
  | key hvalue hkey hm hdone =>
    have halias : (e.grow t).isAliased = true := by
      unfold EntryTokens.grow EntryTokens.isAliased
      simp [hvalue, hkey, ht]
    unfold Assembly.deliver
    rw [ha]
    exact ⟨rfl, .keyed (.inl halias) hdone⟩
  | keyed => cases hawaits
  | value hk hdone =>
    unfold Assembly.deliver
    rw [ha]
    exact ⟨rfl, .entries (hdone.concat (hk.grow t))⟩
  | inner hf hw hD =>
    rw [hD]
    exact Waits.deliver_inner (hf.grow t) hawaits (hw.grow t) ha n

/-- A stack with a frame on top that waits for a node waits for one. -/
theorem Stack.waits (h : Stack o tail ⟨es, some e⟩ D (f :: fs)) (hawaits : f.awaits = true) :
    Waits o tail es e D (f :: fs) := by
  cases h with
  | entries => cases hawaits
  | key hvalue hkey hm hdone => exact .key hvalue hdone
  | keyed => cases hawaits
  | value hk hdone => exact .value hk hdone
  | inner hf hw hD => exact .inner hf hawaits hw hD

/-! ### Tokens within an entry -/

/-- Whether a token is neither a mark of an entry nor the end of something. -/
def Token.Kind.isInner (k : Token.Kind) : Bool := !(k == .key || k == .value || k.closes)

/-- A token that opens and closes nothing changes nothing of what is open. -/
theorem depthAfter_eq (hopens : t.kind.opens = false) (hcloses : t.kind.closes = false)
    (depth : Nat) : depthAfter t depth = depth := by
  simp [depthAfter, hopens, hcloses]

/-- What becomes of a token that begins a node within an entry. -/
def Begins (o : Opening) (tail : List Frame) (es : List EntryTokens) (e : EntryTokens) (D : Nat)
    (t : Token) (p : Progress) (c : Assembly) : Prop :=
  t.kind.isInner = true ∧ c.progress = p ∧
    Stack o tail ⟨es, some (e.grow t)⟩ (depthAfter t D) c.frames

theorem Waits.open_ {isMap : Bool} {o' : Opening} (hw : Waits o tail es e d a.frames)
    (hf : f.Within e d) :
    GivesAs (fun c => c.progress = a.progress ∧
      Stack o tail ⟨es, some e⟩ (d + f.height) c.frames) (a.open_ isMap o' f) := by
  unfold Assembly.open_
  refine givesAs_bind_any fun _ => givesAs_pure.mpr ?_
  obtain ⟨hframes, hprogress⟩ := a.remember_frames o'.anchor (.cycle isMap o')
  refine ⟨hprogress, ?_⟩
  show Stack o tail _ _ (f :: (a.remember o'.anchor (.cycle isMap o')).frames)
  rw [hframes]
  exact .inner hf hw rfl

theorem Waits.addScalar (hw : Waits o tail es e D a.frames) (hm : e.Holds m)
    (anchor : Option String) (tag : Tag) (text : String) :
    GivesAs (fun c => c.progress = a.progress ∧ Stack o tail ⟨es, some e⟩ D c.frames)
      (a.addScalar anchor tag text m) := by
  unfold Assembly.addScalar
  refine givesAs_bind_any fun _ => givesAs_pure.mpr ?_
  exact Waits.close (n := .scalar tag text m) hw hm anchor nofun

/-- **A token that begins the content of a node** within an entry. -/
theorem Waits.beginNode (hw : Waits o tail es e D a.frames) (hm : (e.grow t).Holds m)
    (setting : Setting) (anchor tag : Option String) :
    GivesAs (fun begun => ∀ c, begun = some c → Begins o tail es e D t a.progress c)
      (a.beginNode setting anchor tag m t) := by
  have hw' := hw.grow t
  -- a collection is begun with a frame that stands at the node's mark
  have hopen (isMap : Bool) (o' : Opening) (f : Frame) (hf : f.mark? = some m)
      (hsingle : f.isSingle = false) (hinner : t.kind.isInner = true)
      (hdepth : depthAfter t D = D + f.height) :
      GivesAs (fun begun => ∀ c, begun = some c → Begins o tail es e D t a.progress c)
        ((a.open_ isMap o' f).map some) := by
    have hwithin : f.Within (e.grow t) D := ⟨⟨m, hf, hm⟩, by simp [hsingle]⟩
    refine givesAs_map.mpr ((hw'.open_ hwithin).imp fun c hc => ?_)
    rintro _ ⟨⟩
    exact ⟨hinner, hc.1, hdepth ▸ hc.2⟩
  unfold Assembly.beginNode
  dsimp only
  split
  case h_1 text isPlain hkind =>
    refine givesAs_map.mpr ((hw'.addScalar hm _ _ _).imp fun c hc => ?_)
    rintro _ ⟨⟩
    have hdepth : depthAfter t D = D := depthAfter_eq (hkind ▸ rfl) (hkind ▸ rfl) D
    exact ⟨hkind ▸ rfl, hc.1, hdepth.symm ▸ hc.2⟩
  case h_2 hkind =>
    exact hopen _ _ _ rfl rfl (hkind ▸ rfl)
      (by simp [depthAfter, Token.Kind.opens, hkind, Frame.height])
  case h_3 hkind =>
    exact hopen _ _ _ rfl rfl (hkind ▸ rfl)
      (by simp [depthAfter, Token.Kind.opens, hkind, Frame.height])
  case h_4 hkind =>
    refine givesAs_ite.mpr ⟨fun _ => ?_, fun _ => by simp⟩
    exact hopen _ _ _ rfl rfl (hkind ▸ rfl)
      (by simp [depthAfter, Token.Kind.opens, hkind, Frame.height])
  case h_5 hkind =>
    refine givesAs_ite.mpr ⟨fun _ => ?_, fun _ => by simp⟩
    exact hopen _ _ _ rfl rfl (hkind ▸ rfl)
      (by simp [depthAfter, Token.Kind.opens, hkind, Frame.height])
  case h_6 hkind =>
    refine givesAs_ite.mpr ⟨fun _ => ?_, fun _ => by simp⟩
    exact hopen _ _ _ rfl rfl (hkind ▸ rfl)
      (depthAfter_eq (hkind ▸ rfl) (hkind ▸ rfl) D)
  case h_7 => simp

/-- **A token that begins a node** of which nothing has been said. -/
theorem Stack.addNode (h : Stack o tail ⟨es, some e⟩ D (f :: fs)) (hawaits : f.awaits = true)
    (ha : a.frames = f :: fs) (setting : Setting) :
    GivesAs (Begins o tail es e D t a.progress) (a.addNode setting t) := by
  have hw : Waits o tail es e D a.frames := ha ▸ h.waits hawaits
  -- what is said about a node opens nothing, and its frame stands where it is said
  have hsaid (p : Properties) (hp : p.mark = some t.first) (hinner : t.kind.isInner = true)
      (hdepth : depthAfter t D = D) :
      Begins o tail es e D t a.progress (a.pushFrame (.node setting p)) := by
    refine ⟨hinner, rfl, ?_⟩
    rw [hdepth]
    exact .inner ⟨⟨t.first, hp, e.holds_first t⟩, nofun⟩ (hw.grow t) rfl
  unfold Assembly.addNode
  split
  case h_1 name hkind =>
    have halias : t.isAlias = true := by simp [Token.isAlias, hkind]
    have hdepth : depthAfter t D = D := depthAfter_eq (hkind ▸ rfl) (hkind ▸ rfl) D
    unfold Assembly.addAlias
    split
    · rename_i n hn
      obtain ⟨hprogress, hstack⟩ := h.deliver_alias hawaits ha halias n
      refine givesAs_ok.mpr ⟨hkind ▸ rfl, hprogress, ?_⟩
      rw [hdepth]
      exact hstack
    · simp [Assembly.fail]
  case h_2 name hkind =>
    exact givesAs_ok.mpr (hsaid _ rfl (hkind ▸ rfl)
      (depthAfter_eq (hkind ▸ rfl) (hkind ▸ rfl) _))
  case h_3 w hkind =>
    exact givesAs_ok.mpr (hsaid _ rfl (hkind ▸ rfl)
      (depthAfter_eq (hkind ▸ rfl) (hkind ▸ rfl) _))
  case h_4 =>
    refine givesAs_bind (hw.beginNode (e.holds_first t) setting none none) fun begun hbegun => ?_
    cases begun with
    | none => simp [Assembly.fail]
    | some c => exact givesAs_pure.mpr (hbegun c rfl)

/-- What an offer comes to within an entry. -/
def Offered (o : Opening) (tail : List Frame) (es : List EntryTokens) (e : EntryTokens) (D : Nat)
    (t : Token) (p : Progress) : Assembly.Offer → Prop
  | .taken c => (D = 0 → t.kind.isInner = true) ∧ c.progress = p ∧
      Stack o tail ⟨es, some (e.grow t)⟩ (depthAfter t D) c.frames
  | .passed c => c.progress = p ∧ Stack o tail ⟨es, some e⟩ D c.frames

section Offers

variable (hw : Waits o tail es e d fs) (hf : f.Within e d) (hD : D = d + f.height)
  (ha : a.frames = f :: fs)

include hw hf hD

/-- A frame in the place of another takes the token. -/
theorem Waits.swap (hmark : g.mark? = f.mark?) (hsingle : g.isSingle = true → f.isSingle = true)
    (hheight : g.height = f.height) (hinner : D = 0 → t.kind.isInner = true)
    (hopens : t.kind.opens = false) (hcloses : t.kind.closes = false) :
    Offered o tail es e D t a.progress (.taken ((a.withFrames fs).pushFrame g)) := by
  refine ⟨hinner, rfl, ?_⟩
  rw [depthAfter_eq hopens hcloses]
  have hg : g.Within e d := ⟨hmark ▸ hf.mark, fun h => hf.single (hsingle h)⟩
  exact .inner (hg.grow t) (hw.grow t) (hheight ▸ hD)

/-- A frame makes way for another in its place. -/
theorem Waits.pass (hmark : g.mark? = f.mark?) (hsingle : g.isSingle = true → f.isSingle = true)
    (hheight : g.height = f.height) :
    Offered o tail es e D t a.progress (.passed ((a.withFrames fs).pushFrame g)) :=
  ⟨rfl, .inner ⟨hmark ▸ hf.mark, fun h => hf.single (hsingle h)⟩ hw (hheight ▸ hD)⟩

/-- A collection is finished by the token that ends it. -/
theorem Waits.finish (hmark : f.mark? = some n.mark) (hcycle : ∀ isMap o, n ≠ .cycle isMap o)
    (hheight : f.height = 1) (hopens : t.kind.opens = false) (hcloses : t.kind.closes = true)
    (anchor : Option String) :
    Offered o tail es e D t a.progress (.taken ((a.withFrames fs).close anchor n)) := by
  obtain ⟨m, hm, hholds⟩ := hf.mark
  cases hm.symm.trans hmark
  have hdepth : depthAfter t D = d := by simp [depthAfter, hopens, hcloses, hD, hheight]
  have hw' : Waits o tail es (e.grow t) d (a.withFrames fs).frames := hw.grow t
  obtain ⟨hprogress, hstack⟩ := hw'.close (hholds.grow t) anchor hcycle
  refine ⟨fun h => ?_, hprogress, hdepth.symm ▸ hstack⟩
  omega

/-- A collection is finished before a token. -/
theorem Waits.finish_before (hmark : f.mark? = some n.mark) (hcycle : ∀ isMap o, n ≠ .cycle isMap o)
    (hheight : f.height = 0) (anchor : Option String) :
    Offered o tail es e D t a.progress (.passed ((a.withFrames fs).close anchor n)) := by
  obtain ⟨m, hm, hholds⟩ := hf.mark
  cases hm.symm.trans hmark
  have hw' : Waits o tail es e d (a.withFrames fs).frames := hw
  have hd : D = d := by omega
  rw [hd]
  exact hw'.close hholds anchor hcycle

include ha

/-- A node is begun in a frame that waits for one. -/
theorem Waits.take_node (hawaits : f.awaits = true) (setting : Setting) :
    GivesAs (Offered o tail es e D t a.progress) ((a.addNode setting t).map .taken) := by
  have hstack : Stack o tail ⟨es, some e⟩ D (f :: fs) := .inner hf hw hD
  exact givesAs_map.mpr ((hstack.addNode hawaits ha setting).imp fun c hc => ⟨fun _ => hc.1, hc.2⟩)

/-- A node that is not written is left out. -/
theorem Waits.leave_out (hawaits : f.awaits = true) (n : Node) :
    Offered o tail es e D t a.progress (.passed (a.deliver n)) :=
  hD ▸ Waits.deliver_inner hf hawaits hw ha n

end Offers

/-- Within a mapping something is open, be it the list around it. -/
theorem Frame.Within.pos (h : f.Within e d) (hf : f.height = 0 → f.isSingle = true) :
    0 < d + f.height := by
  rcases Nat.eq_zero_or_pos f.height with hzero | hpos
  · have hd := h.single (hf hzero)
    omega
  · omega

section Frames

variable {setting : Setting} {p : Properties} {style : Style} {o' : Opening} {items : List Node}
  {done : List (Node × Node)}

/-- What has been said about a node is added to, or its content is the token or left out. -/
theorem Waits.offer_node (hw : Waits o tail es e d fs) (hf : (Frame.node setting p).Within e d) :
    GivesAs (Offered o tail es e d t a.progress) (a.offer (.node setting p) fs t) := by
  obtain ⟨m, hm, hholds⟩ := hf.mark
  have hmark : p.mark.getD t.first = m := by
    rw [show p.mark = some m from hm]
    rfl
  unfold Assembly.offer
  dsimp only
  split
  · rename_i name w hkind _ _
    refine givesAs_bind_any fun _ => givesAs_pure.mpr ?_
    exact hw.swap hf rfl rfl nofun rfl (fun _ => hkind ▸ rfl) (hkind ▸ rfl) (hkind ▸ rfl)
  · rename_i w name hkind _ _
    refine givesAs_bind_any fun _ => givesAs_pure.mpr ?_
    exact hw.swap hf rfl rfl nofun rfl (fun _ => hkind ▸ rfl) (hkind ▸ rfl) (hkind ▸ rfl)
  · refine givesAs_bind_any fun tag => ?_
    have hw' : Waits o tail es e d (a.withFrames fs).frames := hw
    rw [hmark]
    refine givesAs_bind (hw'.beginNode (hholds.grow t) setting p.anchor tag)
      fun begun hbegun => ?_
    cases begun with
    | some c =>
      obtain ⟨hinner, hc⟩ := hbegun c rfl
      exact givesAs_pure.mpr ⟨fun _ => hinner, hc⟩
    | none => exact givesAs_bind (hw'.addScalar hholds _ _ _) fun c hc => givesAs_pure.mpr hc

/-- A list goes on with the mark of an item or a comma, or it is finished. -/
theorem Waits.offer_items (hw : Waits o tail es e d fs)
    (hf : (Frame.items style o' items).Within e d)
    (hD : D = d + (Frame.items style o' items).height) :
    GivesAs (Offered o tail es e D t a.progress) (a.offer (.items style o' items) fs t) := by
  have hnode : ∀ isMap o, Node.list o' items ≠ .cycle isMap o := nofun
  unfold Assembly.offer
  dsimp only
  split
  · rename_i hkind
    exact givesAs_ok.mpr
      (hw.swap hf hD rfl nofun rfl (fun _ => hkind ▸ rfl) (hkind ▸ rfl) (hkind ▸ rfl))
  · rename_i hkind
    exact givesAs_ok.mpr (hw.finish hf hD rfl hnode rfl (hkind ▸ rfl) (hkind ▸ rfl) _)
  · rename_i hkind
    exact givesAs_ok.mpr
      (hw.swap hf hD rfl nofun rfl (fun _ => hkind ▸ rfl) (hkind ▸ rfl) (hkind ▸ rfl))
  · exact givesAs_ok.mpr (hw.finish_before hf hD rfl hnode rfl _)
  · rename_i hkind
    exact givesAs_ok.mpr
      (hw.swap hf hD rfl nofun rfl (fun _ => hkind ▸ rfl) (hkind ▸ rfl) (hkind ▸ rfl))
  · rename_i hkind
    exact givesAs_ok.mpr (hw.finish hf hD rfl hnode rfl (hkind ▸ rfl) (hkind ▸ rfl) _)
  · simp [Assembly.fail]

/-- An item is begun or left out; in brackets it may be a mapping of one entry. -/
theorem Waits.offer_item (hw : Waits o tail es e d fs)
    (hf : (Frame.item style o' items m).Within e d)
    (hD : D = d + (Frame.item style o' items m).height)
    (ha : a.frames = .item style o' items m :: fs) :
    GivesAs (Offered o tail es e D t a.progress) (a.offer (.item style o' items m) fs t) := by
  have hnode : ∀ isMap o, Node.list o' items ≠ .cycle isMap o := nofun
  unfold Assembly.offer
  dsimp only
  refine givesAs_ite.mpr ⟨fun _ => givesAs_ok.mpr (hw.leave_out hf hD ha rfl _), fun hends => ?_⟩
  split
  · rename_i hkind
    exact givesAs_ok.mpr (hw.finish hf hD rfl hnode rfl (hkind ▸ rfl) (hkind ▸ rfl) _)
  · -- the mapping is within the list, so the mark of its key is none of the entry's own
    rename_i hkind
    have hpos : 0 < D := hD ▸ hf.pos (by simp [Frame.height])
    have hself : Waits o tail es e D a.frames := ha ▸ .inner hf rfl hw hD
    refine givesAs_ok.mpr ⟨fun hzero => by omega, rfl, ?_⟩
    rw [depthAfter_eq (hkind ▸ rfl) (hkind ▸ rfl) D]
    exact .inner ⟨⟨t.first, rfl, e.holds_first t⟩, fun _ => hpos⟩ (hself.grow t) rfl
  · exact hw.take_node hf hD ha rfl _
  · exact hw.take_node hf hD ha rfl _

/-- A mapping goes on with the mark of a key, or it is finished. -/
theorem Waits.offer_entries (hw : Waits o tail es e d fs)
    (hf : (Frame.entries style o' done).Within e d)
    (hD : D = d + (Frame.entries style o' done).height) :
    GivesAs (Offered o tail es e D t a.progress) (a.offer (.entries style o' done) fs t) := by
  have hnode : ∀ isMap o, Node.map o' done ≠ .cycle isMap o := nofun
  unfold Assembly.offer
  dsimp only
  split
  · rename_i hkind
    exact givesAs_ok.mpr (hw.finish hf hD rfl hnode rfl (hkind ▸ rfl) (hkind ▸ rfl) _)
  · rename_i hkind
    exact givesAs_ok.mpr
      (hw.swap hf hD rfl nofun rfl (fun _ => hkind ▸ rfl) (hkind ▸ rfl) (hkind ▸ rfl))
  · simp [Assembly.fail]
  · exact givesAs_ok.mpr (hw.finish_before hf hD rfl hnode rfl _)
  · rename_i hkind
    have hpos : 0 < D := hD ▸ hf.pos (by simp [Frame.height, Frame.isSingle])
    exact givesAs_ok.mpr
      (hw.swap hf hD rfl id rfl (fun hzero => by omega) (hkind ▸ rfl) (hkind ▸ rfl))
  · rename_i hflow hsingle hkind
    exact givesAs_ok.mpr
      (hw.finish hf hD rfl hnode (if_neg hsingle) (hkind ▸ rfl) (hkind ▸ rfl) _)
  · simp [Assembly.fail]

/-- A mapping in braces goes on with a key, with its mark or without, or it is finished. -/
theorem Waits.offer_entry (hw : Waits o tail es e d fs) (hf : (Frame.entry o' done).Within e d)
    (hD : D = d + (Frame.entry o' done).height) :
    GivesAs (Offered o tail es e D t a.progress) (a.offer (.entry o' done) fs t) := by
  have hnode : ∀ isMap o, Node.map o' done ≠ .cycle isMap o := nofun
  have hpos : 0 < D := hD ▸ hf.pos (by simp [Frame.height])
  unfold Assembly.offer
  dsimp only
  split
  · rename_i hkind
    exact givesAs_ok.mpr (hw.finish hf hD rfl hnode rfl (hkind ▸ rfl) (hkind ▸ rfl) _)
  · rename_i hkind
    exact givesAs_ok.mpr
      (hw.swap hf hD rfl nofun rfl (fun hzero => by omega) (hkind ▸ rfl) (hkind ▸ rfl))
  · -- the frame of a key without a mark waits for it
    have hbare : (Frame.bareKey o' done).Within e d := ⟨hf.mark, nofun⟩
    exact hw.take_node (a := (a.withFrames fs).pushFrame (.bareKey o' done)) hbare hD rfl rfl _

end Frames

/-- **What a frame within an entry does with a token.** -/
theorem Waits.offer (hw : Waits o tail es e d fs) (hf : f.Within e d) (hD : D = d + f.height)
    (ha : a.frames = f :: fs) :
    GivesAs (Offered o tail es e D t a.progress) (a.offer f fs t) := by
  cases f with
  | content =>
    obtain ⟨m, hm, -⟩ := hf.mark
    cases hm
  | node setting p =>
    cases hD
    exact hw.offer_node hf
  | items style o' done => exact hw.offer_items hf hD
  | item style o' done m => exact hw.offer_item hf hD ha
  | entries style o' done => exact hw.offer_entries hf hD
  | entry o' done => exact hw.offer_entry hf hD
  | key style o' done m =>
    unfold Assembly.offer
    refine givesAs_ite.mpr ⟨fun _ => ?_, fun _ => ?_⟩
    · exact givesAs_ok.mpr (hw.leave_out hf hD ha rfl _)
    · exact hw.take_node hf hD ha rfl _
  | bareKey o' done => exact hw.take_node hf hD ha rfl _
  | bareEnd o' done k => exact givesAs_ok.mpr (hw.pass hf hD rfl nofun rfl)
  | keyed style o' done k =>
    unfold Assembly.offer
    refine givesAs_ite.mpr ⟨fun hkind => ?_, fun _ => ?_⟩
    · have hvalue : t.kind = .value := by simpa using hkind
      have hpos : 0 < D := hD ▸ hf.pos (by simp [Frame.height, Frame.isSingle])
      exact givesAs_ok.mpr
        (hw.swap hf hD rfl id rfl (fun hzero => by omega) (hvalue ▸ rfl) (hvalue ▸ rfl))
    · exact givesAs_ok.mpr (hw.pass hf hD rfl id rfl)
  | value style o' done k m =>
    unfold Assembly.offer
    refine givesAs_ite.mpr ⟨fun _ => ?_, fun _ => ?_⟩
    · exact givesAs_ok.mpr (hw.leave_out hf hD ha rfl _)
    · exact hw.take_node hf hD ha rfl _

end Stacks

end ApiSuite.Yaml
