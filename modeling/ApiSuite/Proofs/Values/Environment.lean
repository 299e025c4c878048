import ApiSuite.Proofs.Template.Places
import ApiSuite.Values.Environment
import Mathlib.Data.List.Infix

/-!
# What environment variables change in values

Putting environment variables into a tree of values changes its texts, and of these only the ones
that begin with a token, which is what an embedded expression looks like. What such a text becomes
is said by `ApiSuite.Environment.Stands` from the text alone, without a scanner: the variable is
named by what stands in the token before the first two bars, and a fallback stands after these, or
after the token behind two bars of its own.

What becomes of the whole tree is said place by place (`ApiSuite.Environment.Lawful`). A **path**
leads through objects by key and through lists by index; whatever is at a path afterwards was at the
same path before and has become what it is there (`ApiSuite.Environment.Becomes`), and nothing is
missing but the absent texts of objects. That keys and indices stay as they are is what carries the
induction over the tree: a path into a part is a path into the part of the same key or index
afterwards.
-/

namespace ApiSuite

/-! ### Paths into a value -/

namespace Value

/-- A step into a value. -/
inductive Turn where
  | entry (key : Value)
  | item (index : Nat)

/-- What a path leads to from a value. -/
inductive At : Value → List Turn → Value → Prop
  | here (v : Value) : At v [] v
  | entry {es : List (Value × Value)} {k v w : Value} {path : List Turn} : (k, v) ∈ es →
    At v path w → At (.object es) (.entry k :: path) w
  | item {vs : List Value} {i : Nat} {v w : Value} {path : List Turn} : vs[i]? = some v →
    At v path w → At (.list vs) (.item i :: path) w

section At

variable {v w : Value} {path : List Turn}

theorem at_nil_iff : At v [] w ↔ w = v := by
  constructor
  · rintro ⟨⟩
    rfl
  · rintro rfl
    exact .here _

theorem at_entry_iff {k : Value} :
    At v (.entry k :: path) w ↔ ∃ es u, v = .object es ∧ (k, u) ∈ es ∧ At u path w := by
  constructor
  · rintro (_ | ⟨hmem, hw⟩)
    exact ⟨_, _, rfl, hmem, hw⟩
  · rintro ⟨es, u, rfl, hmem, hw⟩
    exact .entry hmem hw

theorem at_item_iff {i : Nat} :
    At v (.item i :: path) w ↔ ∃ vs u, v = .list vs ∧ vs[i]? = some u ∧ At u path w := by
  constructor
  · rintro (_ | _ | ⟨hitem, hw⟩)
    exact ⟨_, _, rfl, hitem, hw⟩
  · rintro ⟨vs, u, rfl, hitem, hw⟩
    exact .item hitem hw

/-- Nothing is in a text or in null. -/
theorem At.eq_nil (h : At v path w) (hlist : ∀ vs, v ≠ .list vs) (hobject : ∀ es, v ≠ .object es) :
    path = [] ∧ w = v := by
  cases h with
  | here => exact ⟨rfl, rfl⟩
  | entry => exact absurd rfl (hobject _)
  | item => exact absurd rfl (hlist _)

end At

/-- Whether a path ends in a list. -/
def endsInList (path : List Turn) : Bool :=
  match path.getLast? with
  | some (.item _) => true
  | _ => false

@[simp] theorem endsInList_entry (k : Value) (path : List Turn) :
    endsInList (.entry k :: path) = endsInList path := by
  cases path <;> rfl

end Value

namespace Environment

open Text Value

/-! ### What a text stands for -/

section Texts

variable {env : Environment} {s : String} {body rest name cs : List Char}
  {fallback : Option (List Char)}

/-- A text begins with a token: what stands between its braces, and the rest of the text. -/
def BeginsWith (s : String) (body rest : List Char) : Prop :=
  s.toList = Template.wrap body ++ rest ∧ Template.IsBody body

/-- The name in a token, and the fallback after the first two bars if there are any. -/
inductive Names : List Char → List Char → Option (List Char) → Prop
  | alone {body : List Char} : ¬['|', '|'] <:+: body → Names body body none
  | barred {name fallback : List Char} : ¬['|', '|'] <:+: name ++ ['|'] →
    Names (name ++ '|' :: '|' :: fallback) name (some fallback)

/-- What a text stands for, none if it is absent. -/
inductive Stands (env : Environment) (s : String) : Option String → Prop
  /-- A text that does not begin with a token stands for itself. -/
  | itself : (∀ body rest, ¬BeginsWith s body rest) → Stands env s (some s)
  /-- A variable that is set counts, whatever it is set to. -/
  | isSet {body rest name : List Char} {fallback : Option (List Char)} {value : String} :
    BeginsWith s body rest → Names body name fallback →
    env.lookup (String.ofList (trim name)) = some value → Stands env s (some value)
  /-- Otherwise the fallback in the token does. -/
  | inside {body rest name fallback : List Char} :
    BeginsWith s body rest → Names body name (some fallback) →
    env.lookup (String.ofList (trim name)) = none →
    Stands env s (some (String.ofList (trim fallback)))
  /-- Without that, the fallback after the token does. -/
  | behind {body rest name fallback : List Char} :
    BeginsWith s body rest → Names body name none →
    env.lookup (String.ofList (trim name)) = none → trim rest = '|' :: '|' :: fallback →
    Stands env s (some (String.ofList (trim fallback)))
  /-- With neither the text is absent. -/
  | absent {body rest name : List Char} :
    BeginsWith s body rest → Names body name none →
    env.lookup (String.ofList (trim name)) = none → ¬['|', '|'] <+: trim rest →
    Stands env s none

theorem beginsWith_iff :
    BeginsWith s body rest ↔
      ∃ cs, s.toList = '$' :: '{' :: cs ∧ Template.body? cs = some (body, rest) := by
  simp only [Template.body?_eq_some_iff]
  constructor
  · rintro ⟨htext, hbody⟩
    exact ⟨body ++ '}' :: rest, by simp [htext, Template.wrap], rfl, hbody⟩
  · rintro ⟨_, htext, rfl, hbody⟩
    exact ⟨by simp [htext, Template.wrap], hbody⟩

/-- **A text begins with one token at most.** -/
theorem BeginsWith.unique {body' rest' : List Char} (h : BeginsWith s body rest)
    (h' : BeginsWith s body' rest') : body' = body ∧ rest' = rest := by
  obtain ⟨cs, htext, hbody⟩ := beginsWith_iff.mp h
  obtain ⟨cs', htext', hbody'⟩ := beginsWith_iff.mp h'
  rw [htext] at htext'
  cases htext'
  cases hbody.symm.trans hbody'
  exact ⟨rfl, rfl⟩

theorem splitBars_cons {c : Char} (h : ¬['|', '|'] <+: c :: cs) :
    splitBars (c :: cs) = (c :: (splitBars cs).1, (splitBars cs).2) := by
  rw [splitBars]
  rintro rest rfl rfl
  exact h ⟨rest, rfl⟩

/-- A text without two bars next to each other is not divided. -/
theorem splitBars_eq_self (h : ¬['|', '|'] <:+: cs) : splitBars cs = (cs, none) := by
  induction cs with
  | nil => rfl
  | cons c cs ih =>
    rw [List.infix_cons_iff, not_or] at h
    rw [splitBars_cons h.1, ih h.2]

/-- The first two bars divide a text, whatever follows them. -/
theorem splitBars_append (h : ¬['|', '|'] <:+: name ++ ['|']) (cs : List Char) :
    splitBars (name ++ '|' :: '|' :: cs) = (name, some cs) := by
  induction name with
  | nil => rfl
  | cons c name ih =>
    rw [List.cons_append, List.infix_cons_iff, not_or] at h
    have hfirst : ¬['|', '|'] <+: c :: (name ++ '|' :: '|' :: cs) := by
      intro hbars
      have hstart : c :: (name ++ ['|']) <+: c :: (name ++ '|' :: '|' :: cs) :=
        ⟨'|' :: cs, by simp⟩
      exact h.1 (List.prefix_of_prefix_length_le hbars hstart (by simp))
    rw [List.cons_append, splitBars_cons hfirst, ih h.2]

theorem names_splitBars (body : List Char) : Names body (splitBars body).1 (splitBars body).2 := by
  induction body with
  | nil => exact .alone (by simp)
  | cons c cs ih =>
    by_cases hbars : ['|', '|'] <+: c :: cs
    · obtain ⟨rest, hrest⟩ := hbars
      rw [← hrest]
      exact @Names.barred [] rest fun h => absurd h.length_le (by simp)
    · rw [splitBars_cons hbars]
      generalize splitBars cs = divided at ih ⊢
      obtain ⟨name, fallback⟩ := divided
      cases ih with
      | alone hnone =>
        refine .alone ?_
        rw [List.infix_cons_iff, not_or]
        exact ⟨hbars, hnone⟩
      | @barred name fallback hnone =>
        refine @Names.barred (c :: name) fallback ?_
        rw [List.cons_append, List.infix_cons_iff, not_or]
        exact ⟨fun hfirst => hbars (hfirst.trans ⟨'|' :: fallback, by simp⟩), hnone⟩

/-- **A token is divided at its first two bars.** -/
theorem names_iff : Names body name fallback ↔ splitBars body = (name, fallback) := by
  constructor
  · intro h
    cases h with
    | alone hnone => exact splitBars_eq_self hnone
    | barred hnone => exact splitBars_append hnone _
  · intro h
    have hnames := names_splitBars body
    rwa [h] at hnames

theorem trailing?_of_bars (h : trim rest = '|' :: '|' :: cs) : trailing? rest = some (trim cs) := by
  simp only [trailing?, h]

theorem trailing?_eq_none (h : ¬['|', '|'] <+: trim rest) : trailing? rest = none := by
  unfold trailing?
  split
  · rename_i cs htrim
    exact absurd ⟨cs, htrim.symm⟩ h
  · rfl

theorem substituteText_of_not_beginsWith (h : ∀ body rest, ¬BeginsWith s body rest) :
    substituteText env s = some s := by
  unfold substituteText
  split
  · rename_i cs htext
    cases hbody : Template.body? cs with
    | none => rfl
    | some found => exact absurd (beginsWith_iff.mpr ⟨cs, htext, hbody⟩) (h _ _)
  · rfl

theorem substituteText_of_beginsWith (h : BeginsWith s body rest)
    (hnames : Names body name fallback) :
    substituteText env s =
      match env.lookup (String.ofList (trim name)), fallback with
      | some value, _ => some value
      | none, some inside => some (String.ofList (trim inside))
      | none, none => (trailing? rest).map String.ofList := by
  obtain ⟨cs, htext, hbody⟩ := beginsWith_iff.mp h
  unfold substituteText
  rw [htext]
  simp only [hbody, names_iff.mp hnames]
  cases env.lookup (String.ofList (trim name)) with
  | some value => rfl
  | none => cases fallback <;> rfl

/-- **What a text stands for.** -/
theorem substituteText_eq_iff {found : Option String} :
    substituteText env s = found ↔ Stands env s found := by
  constructor
  · rintro rfl
    by_cases htoken : ∃ body rest, BeginsWith s body rest
    · obtain ⟨body, rest, htoken⟩ := htoken
      have hnames := names_splitBars body
      generalize (splitBars body).1 = name, (splitBars body).2 = fallback at hnames
      rw [substituteText_of_beginsWith htoken hnames]
      cases hset : env.lookup (String.ofList (trim name)) with
      | some value => exact .isSet htoken hnames hset
      | none =>
        cases fallback with
        | some inside => exact .inside htoken hnames hset
        | none =>
          by_cases hbars : ['|', '|'] <+: trim rest
          · obtain ⟨behind, hbehind⟩ := hbars
            simp only [trailing?_of_bars hbehind.symm]
            exact .behind htoken hnames hset hbehind.symm
          · simp only [trailing?_eq_none hbars]
            exact .absent htoken hnames hset hbars
    · have hnone : ∀ body rest, ¬BeginsWith s body rest := fun body rest h =>
        htoken ⟨body, rest, h⟩
      rw [substituteText_of_not_beginsWith hnone]
      exact .itself hnone
  · intro h
    cases h with
    | itself hnone => exact substituteText_of_not_beginsWith hnone
    | isSet htoken hnames hset => rw [substituteText_of_beginsWith htoken hnames, hset]
    | inside htoken hnames hset => rw [substituteText_of_beginsWith htoken hnames, hset]
    | behind htoken hnames hset hbars =>
      rw [substituteText_of_beginsWith htoken hnames, hset]
      simp only [trailing?_of_bars hbars, Option.map_some]
    | absent htoken hnames hset hbars =>
      rw [substituteText_of_beginsWith htoken hnames, hset]
      simp only [trailing?_eq_none hbars, Option.map_none]

instance decidableStands (env : Environment) (s : String) (found : Option String) :
    Decidable (Stands env s found) :=
  decidable_of_iff (substituteText env s = found) substituteText_eq_iff

end Texts

/-! ### What a value becomes -/

section Trees

variable {env : Environment} {v w : Value} {es : List (Value × Value)} {vs : List Value}

/-- A value is a text that is absent. -/
def IsAbsent (env : Environment) (v : Value) : Prop := ∃ s, v = .str s ∧ Stands env s none

/-- **Nothing comes of a value** exactly if it is an absent text. -/
theorem substitute?_eq_none_iff : env.substitute? v = none ↔ IsAbsent env v := by
  unfold IsAbsent
  cases v <;> simp [substitute?, substituteText_eq_iff]

instance decidableIsAbsent (env : Environment) (v : Value) : Decidable (IsAbsent env v) :=
  decidable_of_iff ((env.substitute? v).isNone = true) <| by
    rw [Option.isNone_iff_eq_none, substitute?_eq_none_iff]

/-- What a value becomes where it stands, in a list or elsewhere. What becomes of the parts of a
collection is another matter. -/
inductive Becomes (env : Environment) (inList : Bool) : Value → Value → Prop
  | text {s t : String} : Stands env s (some t) → Becomes env inList (.str s) (.str t)
  /-- An absent text becomes null in a list, and nothing elsewhere. -/
  | null {v : Value} : inList = true → IsAbsent env v → Becomes env inList v .null
  | list {vs ws : List Value} : ws.length = vs.length → Becomes env inList (.list vs) (.list ws)
  /-- An object loses the keys of absent texts, and the others keep their order. -/
  | object {es fs : List (Value × Value)} :
    fs.map Prod.fst = (es.filter fun e => ¬IsAbsent env e.2).map Prod.fst →
    Becomes env inList (.object es) (.object fs)
  /-- Any other value stays as it is. -/
  | other {v : Value} : (∀ s, v ≠ .str s) → (∀ vs, v ≠ .list vs) → (∀ es, v ≠ .object es) →
    Becomes env inList v v

theorem length_substituteItems : (env.substituteItems vs).length = vs.length := by
  induction vs with
  | nil => rfl
  | cons v vs ih => rw [substituteItems, List.length_cons, ih, List.length_cons]

theorem getElem?_substituteItems (i : Nat) :
    (env.substituteItems vs)[i]? = vs[i]?.map fun v => (env.substitute? v).getD .null := by
  induction vs generalizing i with
  | nil => rfl
  | cons v vs ih =>
    rw [substituteItems]
    cases i with
    | zero => rfl
    | succ i => exact ih i

theorem mem_substituteEntries {k : Value} :
    (k, w) ∈ env.substituteEntries es ↔ ∃ v, (k, v) ∈ es ∧ env.substitute? v = some w := by
  induction es with
  | nil => simp [substituteEntries]
  | cons e es ih =>
    obtain ⟨l, u⟩ := e
    rw [substituteEntries]
    cases hu : env.substitute? u with
    | none =>
      rw [ih]
      constructor
      · rintro ⟨v, hv, hw⟩
        exact ⟨v, by simp [hv], hw⟩
      · rintro ⟨v, hv, hw⟩
        rcases List.mem_cons.mp hv with heq | hv
        · cases heq
          cases hu.symm.trans hw
        · exact ⟨v, hv, hw⟩
    | some x =>
      rw [List.mem_cons, ih]
      constructor
      · rintro (heq | ⟨v, hv, hw⟩)
        · cases heq
          exact ⟨u, by simp, hu⟩
        · exact ⟨v, by simp [hv], hw⟩
      · rintro ⟨v, hv, hw⟩
        rcases List.mem_cons.mp hv with heq | hv
        · cases heq
          cases hu.symm.trans hw
          exact .inl rfl
        · exact .inr ⟨v, hv, hw⟩

theorem keys_substituteEntries :
    (env.substituteEntries es).map Prod.fst =
      (es.filter fun e => ¬IsAbsent env e.2).map Prod.fst := by
  induction es with
  | nil => rfl
  | cons e es ih =>
    obtain ⟨k, v⟩ := e
    rw [substituteEntries]
    cases hv : env.substitute? v with
    | none =>
      have habsent := substitute?_eq_none_iff.mp hv
      rw [List.filter_cons_of_neg (by simpa using habsent)]
      exact ih
    | some w =>
      have hpresent : ¬IsAbsent env v := by
        rw [← substitute?_eq_none_iff, hv]
        exact nofun
      rw [List.filter_cons_of_pos (by simpa using hpresent), List.map_cons, List.map_cons, ih]

/-- What a value becomes, its parts apart. -/
theorem becomes_substitute? (inList : Bool) (h : env.substitute? v = some w) :
    Becomes env inList v w := by
  cases v with
  | str s =>
    obtain ⟨t, ht, rfl⟩ := Option.map_eq_some_iff.mp h
    exact .text (substituteText_eq_iff.mp ht)
  | list vs =>
    cases h
    exact .list length_substituteItems
  | object es =>
    cases h
    exact .object keys_substituteEntries
  | _ =>
    cases h
    exact .other nofun nofun nofun

/-! ### Path by path -/

theorem Becomes.toList {x : Value} {inList : Bool} (h : Becomes env false v x) :
    Becomes env inList v x := by
  cases h with
  | text hs => exact .text hs
  | null hlist => cases hlist
  | list hlength => exact .list hlength
  | object hkeys => exact .object hkeys
  | other hstr hlist hobject => exact .other hstr hlist hobject

theorem substitute?_eq_object {fs : List (Value × Value)}
    (h : env.substitute? v = some (.object fs)) :
    ∃ es, v = .object es ∧ fs = env.substituteEntries es := by
  cases v with
  | object es =>
    cases h
    exact ⟨es, rfl, rfl⟩
  | str s =>
    obtain ⟨t, -, ht⟩ := Option.map_eq_some_iff.mp h
    cases ht
  | _ => cases h

theorem substitute?_eq_list {ws : List Value} (h : env.substitute? v = some (.list ws)) :
    ∃ vs, v = .list vs ∧ ws = env.substituteItems vs := by
  cases v with
  | list vs =>
    cases h
    exact ⟨vs, rfl, rfl⟩
  | str s =>
    obtain ⟨t, -, ht⟩ := Option.map_eq_some_iff.mp h
    cases ht
  | _ => cases h

/-- What a value becomes at the end of a path, it becomes also where that ends in a list. -/
theorem Becomes.item {path : List Turn} {u x : Value} (h : Becomes env (endsInList path) u x)
    (i : Nat) : Becomes env (endsInList (.item i :: path)) u x := by
  cases path with
  | nil => exact h.toList
  | cons t path => exact h

/-- **Whatever is at a path afterwards has come from what was there.** -/
theorem comes_of_substitute? {path : List Turn} {x : Value} (h : env.substitute? v = some w)
    (hx : At w path x) : ∃ u, At v path u ∧ Becomes env (endsInList path) u x := by
  induction path generalizing v w with
  | nil =>
    cases at_nil_iff.mp hx
    exact ⟨v, .here v, becomes_substitute? _ h⟩
  | cons t path ih =>
    cases t with
    | entry k =>
      obtain ⟨fs, w', rfl, hmem, hpart⟩ := at_entry_iff.mp hx
      obtain ⟨es, rfl, rfl⟩ := substitute?_eq_object h
      obtain ⟨v', hv', hw'⟩ := mem_substituteEntries.mp hmem
      obtain ⟨u, hu, hbecomes⟩ := ih hw' hpart
      exact ⟨u, .entry hv' hu, by rwa [endsInList_entry]⟩
    | item i =>
      obtain ⟨ws, w', rfl, hitem, hpart⟩ := at_item_iff.mp hx
      obtain ⟨vs, rfl, rfl⟩ := substitute?_eq_list h
      rw [getElem?_substituteItems] at hitem
      obtain ⟨v', hv', rfl⟩ := Option.map_eq_some_iff.mp hitem
      cases hw' : env.substitute? v' with
      | some w' =>
        rw [hw'] at hpart
        obtain ⟨u, hu, hbecomes⟩ := ih hw' hpart
        exact ⟨u, .item hv' hu, hbecomes.item i⟩
      | none =>
        -- null has come from an absent text, and nothing is in it
        rw [hw'] at hpart
        obtain ⟨rfl, rfl⟩ := hpart.eq_nil nofun nofun
        exact ⟨v', .item hv' (.here v'), .null rfl (substitute?_eq_none_iff.mp hw')⟩

variable {env' : Environment}

/-- A text in a value begins with a token that names a variable. -/
def Mentions (v : Value) (name : String) : Prop :=
  ∃ path s body rest written fallback, At v path (.str s) ∧ BeginsWith s body rest ∧
    Names body written fallback ∧ name = String.ofList (trim written)

theorem Mentions.of_item {u : Value} {name : String} (h : Mentions u name) (hu : u ∈ vs) :
    Mentions (.list vs) name := by
  obtain ⟨path, s, body, rest, written, fallback, hs, htoken⟩ := h
  obtain ⟨i, hi⟩ := List.mem_iff_getElem?.mp hu
  exact ⟨.item i :: path, s, body, rest, written, fallback, .item hi hs, htoken⟩

theorem Mentions.of_entry {e : Value × Value} {name : String} (h : Mentions e.2 name)
    (he : e ∈ es) : Mentions (.object es) name := by
  obtain ⟨path, s, body, rest, written, fallback, hs, htoken⟩ := h
  exact ⟨.entry e.1 :: path, s, body, rest, written, fallback, .entry he hs, htoken⟩

/-- Two environments agree on the variables that a value mentions. -/
def AgreeOn (env env' : Environment) (v : Value) : Prop :=
  ∀ name, Mentions v name → env'.lookup name = env.lookup name

theorem substituteText_congr {s : String} (h : AgreeOn env env' (.str s)) :
    substituteText env' s = substituteText env s := by
  by_cases htoken : ∃ body rest, BeginsWith s body rest
  · obtain ⟨body, rest, htoken⟩ := htoken
    have hnames := names_splitBars body
    rw [substituteText_of_beginsWith htoken hnames, substituteText_of_beginsWith htoken hnames,
      h _ ⟨[], s, body, rest, _, _, .here _, htoken, hnames, rfl⟩]
  · have hnone : ∀ body rest, ¬BeginsWith s body rest := fun body rest h =>
      htoken ⟨body, rest, h⟩
    rw [substituteText_of_not_beginsWith hnone, substituteText_of_not_beginsWith hnone]

/-! Values hold values, and so the statements about one and about many are proved together. -/

mutual

/-- **What becomes of a value depends on the variables that it mentions.** -/
theorem substitute?_congr : ∀ (v : Value), AgreeOn env env' v →
    env'.substitute? v = env.substitute? v
  | .str s, h => by rw [substitute?, substitute?, substituteText_congr h]
  | .list vs, h => by
    rw [substitute?, substitute?,
      substituteItems_congr vs fun v hv name hname => h name (hname.of_item hv)]
  | .object es, h => by
    rw [substitute?, substitute?,
      substituteEntries_congr es fun e he name hname => h name (hname.of_entry he)]
  | .null, _ | .bool _, _ | .int _, _ | .float _, _ | .bytes _, _ | .date _, _ | .datetime _, _
  | .tuple _, _ | .set _, _ => rfl

theorem substituteItems_congr : ∀ (vs : List Value), (∀ v ∈ vs, AgreeOn env env' v) →
    env'.substituteItems vs = env.substituteItems vs
  | [], _ => rfl
  | v :: vs, h => by
    obtain ⟨hv, hvs⟩ := List.forall_mem_cons.mp h
    rw [substituteItems, substituteItems, substitute?_congr v hv, substituteItems_congr vs hvs]

theorem substituteEntries_congr : ∀ (es : List (Value × Value)),
    (∀ e ∈ es, AgreeOn env env' e.2) → env'.substituteEntries es = env.substituteEntries es
  | [], _ => rfl
  | (k, v) :: es, h => by
    obtain ⟨hv, hes⟩ := List.forall_mem_cons.mp h
    rw [substituteEntries, substituteEntries, substitute?_congr v hv,
      substituteEntries_congr es hes]

end

/-- Of four texts one is a fallback, one absent in the object, one set to nothing and one absent in
the list. -/
example :
    substituteEntries [("A", "")]
      [(.str "port", .str "$\x7bPORT || 8080\x7d"), (.str "host", .str "$\x7bHOST\x7d/x"),
        (.str "list", .list [.str "$\x7bA\x7d || 1", .str "$\x7bB\x7d"])] =
      [(.str "port", .str "8080"), (.str "list", .list [.str "", .null])] := by
  cbv

end Trees

end Environment

end ApiSuite
