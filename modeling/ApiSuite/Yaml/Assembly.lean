import ApiSuite.Yaml.Layout
import ApiSuite.Yaml.Node

/-!
# Assembling nodes

The tree of nodes is assembled from the tokens one by one. A stack of **frames** says what has
been begun and what may come next; a token is taken by the topmost frame, or ends it and is
offered to the one below, so that a token is taken by one frame at last
(`ApiSuite.Yaml.Assembly.feed`).

An alias for a node that is still being assembled cannot be followed at once, and is noted as a
cycle. `ApiSuite.Yaml.Node.unrolled` follows it when the whole document is known.
-/

namespace ApiSuite.Yaml

/-- What is said about a node before its content: an anchor, a tag and the place where they
begin. -/
structure Properties where
  anchor : Option String
  tag : Option WrittenTag
  mark : Option Mark
deriving Repr

/-- Nothing said. -/
def Properties.none : Properties := ⟨.none, .none, .none⟩

/-- Where a node may stand: in a block, as a value in a block, where a list may begin without
more indentation, or in brackets. -/
inductive Setting where
  | block
  | blockValue
  | flow
deriving DecidableEq, Repr

/-- Whether a collection may begin by indentation. -/
def Setting.isBlock : Setting → Bool
  | .flow => false
  | _ => true

/-- How a collection is written. -/
inductive Style where
  | block
  /-- A list in a block that is not indented more than its key. -/
  | unindented
  | flow
  /-- A mapping of one entry in a bracketed list, without braces of its own. -/
  | single
deriving DecidableEq, Repr

/-- Where the keys and values of a mapping stand. -/
def Style.setting : Style → Setting
  | .flow | .single => .flow
  | _ => .blockValue

/-- What has been begun, and what may come next. -/
inductive Frame where
  /-- The content of a document after its explicit beginning. -/
  | content
  /-- A node of which the properties have been read. -/
  | node (setting : Setting) (properties : Properties)
  /-- A list, before the mark of an item or its end. -/
  | items (style : Style) (o : Opening) (done : List Node)
  /-- A list in which an item may begin. -/
  | item (style : Style) (o : Opening) (done : List Node) (mark : Mark)
  /-- A mapping, before the mark of a key or its end. -/
  | entries (style : Style) (o : Opening) (done : List (Node × Node))
  /-- A mapping in braces in which a key may begin, with a mark or without. -/
  | entry (o : Opening) (done : List (Node × Node))
  /-- A mapping in which a key may begin after the mark of one. -/
  | key (style : Style) (o : Opening) (done : List (Node × Node)) (mark : Mark)
  /-- A mapping in braces in which a key has begun without a mark; it has no value. -/
  | bareKey (o : Opening) (done : List (Node × Node))
  /-- A mapping, between a key without a mark and what follows it. -/
  | bareEnd (o : Opening) (done : List (Node × Node)) (key : Node)
  /-- A mapping, between a key and the mark of its value. -/
  | keyed (style : Style) (o : Opening) (done : List (Node × Node)) (key : Node)
  /-- A mapping in which a value may begin after the mark of one. -/
  | value (style : Style) (o : Opening) (done : List (Node × Node)) (key : Node) (mark : Mark)

/-- What is known of a document while it is assembled. -/
inductive Progress where
  /-- Before the document. -/
  | before
  /-- After directives, the first of them at a place. -/
  | directives (first : Mark) (version : Bool)
  | inside
  /-- After the document's content. -/
  | after (root : Node)
  /-- After the document's explicit end. -/
  | ended (root : Node)
  /-- After the directives of a further document. -/
  | further (first : Mark) (version : Bool)
  /-- At the end of the input. -/
  | done (root : Option Node)

/-- A document as far as it has been assembled: the frames, topmost first, the nodes by
anchor and the prefixes by handle. -/
structure Assembly where
  progress : Progress
  frames : List Frame
  anchors : List (String × Node)
  handles : List (String × String)

namespace Assembly

/-- The failure at a place. -/
def fail {α : Type} (m : Mark) : Except Failure α := .error (.malformed m)

/-- The prefixes that handles stand for unless directives say otherwise. -/
def defaultHandles : List (String × String) := [("!", "!"), ("!!", Tag.namespaceName)]

/-- The assembly before any token. -/
def start : Assembly := ⟨.before, [], [], []⟩

/-- A handle stands for what a directive says, or for its default. -/
def prefixOf? (handles : List (String × String)) (handle : String) : Option String :=
  (handles.lookup handle).or (defaultHandles.lookup handle)

/-- The full name of a tag. -/
def fullName? (handles : List (String × String)) (t : WrittenTag) : Option String :=
  match t.handle with
  | none => some t.suffix
  | some h => (prefixOf? handles h).map (· ++ t.suffix)

/-- The full name of the tag among properties; a tag with an unknown handle is a failure. -/
def tagName (a : Assembly) (p : Properties) (at_ : Mark) : Except Failure (Option String) :=
  match p.tag with
  | none => .ok none
  | some t =>
    match fullName? a.handles t with
    | some name => .ok (some name)
    | none => fail at_

/-- The tag of a collection, which is the usual one unless another is said. -/
def collectionTag (usual : Tag) : Option String → Tag
  | none => usual
  | some name => if name == "!" then usual else .ofName name

/-- The tag of a scalar: what its spelling suggests if it is plain or marked so, and a text
otherwise. -/
def scalarTag (isPlain : Bool) (text : String) : Option String → Tag
  | none => if isPlain then .suggested text else .str
  | some name => if name == "!" then .suggested text else .ofName name

/-- The assembly with a finished node under its anchor. -/
def remember (anchor : Option String) (n : Node) (a : Assembly) : Assembly :=
  match anchor with
  | none => a
  | some name =>
    { a with anchors := (name, n) :: a.anchors.filter fun e => e.1 != name }

/-- An anchor must not be used twice. -/
def checkAnchor (a : Assembly) (anchor : Option String) (m : Mark) : Except Failure Unit :=
  match anchor with
  | none => .ok ()
  | some name => if a.anchors.any fun e => e.1 == name then fail m else .ok ()

/-- The assembly with a frame on top. -/
def pushFrame (f : Frame) (a : Assembly) : Assembly := { a with frames := f :: a.frames }

/-- The assembly in which a node has been finished. -/
def deliver (n : Node) (a : Assembly) : Assembly :=
  match a.frames with
  | [] => { a with progress := .after n }
  | f :: fs =>
    match f with
    | .item style o done _ => { a with frames := .items style o (done ++ [n]) :: fs }
    | .key style o done _ => { a with frames := .keyed style o done n :: fs }
    | .bareKey o done => { a with frames := .bareEnd o done n :: fs }
    | .value style o done key _ =>
      { a with frames := .entries style o (done ++ [(key, n)]) :: fs }
    | .content => { a with frames := fs, progress := .after n }
    | _ => { a with frames := fs }

/-- A scalar that is not written. -/
def emptyScalar (m : Mark) : Node := .scalar .null "" m

/-- The assembly in which a collection has been finished. -/
def close (anchor : Option String) (n : Node) (a : Assembly) : Assembly :=
  (a.remember anchor n).deliver n

/-- The assembly in which a list or a mapping has been begun. -/
def open_ (isMap : Bool) (o : Opening) (f : Frame) (a : Assembly) : Except Failure Assembly := do
  a.checkAnchor o.anchor o.mark
  pure ((a.remember o.anchor (.cycle isMap o)).pushFrame f)

/-- The assembly in which a scalar has been read. -/
def addScalar (anchor : Option String) (tag : Tag) (text : String) (m : Mark) (a : Assembly) :
    Except Failure Assembly := do
  a.checkAnchor anchor m
  pure (a.close anchor (.scalar tag text m))

/-- What a token does where the content of a node is to come: the assembly with the content or
its beginning, or none if the token is no content. -/
def beginNode (setting : Setting) (anchor : Option String) (tag : Option String) (m : Mark)
    (t : Token) (a : Assembly) : Except Failure (Option Assembly) :=
  let list : Opening := ⟨anchor, collectionTag .list tag, m, a.frames.length⟩
  let map : Opening := ⟨anchor, collectionTag .map tag, m, a.frames.length⟩
  match t.kind with
  | .scalar text isPlain =>
    (a.addScalar anchor (scalarTag isPlain text tag) text m).map some
  | .listOpen => (a.open_ false list (.item .flow list [] t.last)).map some
  | .braceOpen => (a.open_ true map (.entry map [])).map some
  | .sequenceStart =>
    if setting.isBlock then (a.open_ false list (.items .block list [])).map some else .ok none
  | .mappingStart =>
    if setting.isBlock then (a.open_ true map (.entries .block map [])).map some else .ok none
  | .dash =>
    if setting == .blockValue then (a.open_ false list (.item .unindented list [] t.last)).map some
    else .ok none
  | _ => .ok none

/-- The node an alias stands for. -/
def addAlias (name : String) (m : Mark) (a : Assembly) : Except Failure Assembly :=
  match a.anchors.lookup name with
  | some n => .ok (a.deliver n)
  | none => fail m

/-- What a token does where a node is to come of which nothing has been said. -/
def addNode (setting : Setting) (t : Token) (a : Assembly) : Except Failure Assembly :=
  match t.kind with
  | .alias name => a.addAlias name t.first
  | .anchor name => .ok (a.pushFrame (.node setting ⟨some name, none, some t.first⟩))
  | .tag w => .ok (a.pushFrame (.node setting ⟨none, some w, some t.first⟩))
  | _ => do
    match ← a.beginNode setting none none t.first t with
    | some b => pure b
    | none => fail t.first

/-! ### Documents -/

/-- The assembly with a directive taken in. -/
def addDirective (t : Token) (versionSeen : Bool) (a : Assembly) :
    Except Failure (Bool × Assembly) :=
  match t.kind with
  | .version major => if versionSeen || major != 1 then fail t.first else .ok (true, a)
  | .handle name stands =>
    if a.handles.any fun h => h.1 == name then fail t.first
    else .ok (versionSeen, { a with handles := (name, stands) :: a.handles })
  | _ => .ok (versionSeen, a)

/-- Whether a token is a directive. -/
def isDirective (t : Token) : Bool :=
  match t.kind with
  | .version _ | .handle _ _ | .directive => true
  | _ => false

/-- What a token does outside of any node. -/
def feedDocument (t : Token) (a : Assembly) : Except Failure Assembly :=
  match a.progress with
  | .before =>
    if t.kind == .endOfInput then .ok { a with progress := .done none }
    else if isDirective t then do
      let (version, a) ← a.addDirective t false
      pure { a with progress := .directives t.first version }
    else if t.kind == .documentStart then .ok { a with progress := .inside, frames := [.content] }
    else { a with progress := .inside }.addNode .block t
  | .directives first version =>
    if isDirective t then do
      let (version, a) ← a.addDirective t version
      pure { a with progress := .directives first version }
    else if t.kind == .documentStart then .ok { a with progress := .inside, frames := [.content] }
    else fail t.first
  | .inside => fail t.first
  | .after root | .ended root =>
    if t.kind == .documentEnd then .ok { a with progress := .ended root }
    else if t.kind == .endOfInput then .ok { a with progress := .done (some root) }
    else if isDirective t then do
      let (version, a) ← { a with handles := [] }.addDirective t false
      pure { a with progress := .further t.first version }
    else fail t.first
  | .further first version =>
    if isDirective t then do
      let (version, a) ← a.addDirective t version
      pure { a with progress := .further first version }
    else if t.kind == .documentStart then fail first
    else fail t.first
  | .done _ => .ok a

/-! ### Tokens in frames -/

/-- Whether a token ends a place in a block where a node may come. -/
def endsBlockPlace (k : Token.Kind) : Bool := k == .key || k == .value || k == .blockEnd

/-- Whether no item comes after the mark of one. -/
def endsItem (style : Style) (k : Token.Kind) : Bool :=
  match style with
  | .block => k == .dash || k == .blockEnd
  | .unindented => k == .dash || endsBlockPlace k
  | _ => false

/-- Whether no key comes after the mark of one. -/
def endsKey (style : Style) (k : Token.Kind) : Bool :=
  match style with
  | .flow => k == .value || k == .comma || k == .braceClose
  | .single => k == .value || k == .comma || k == .listClose
  | _ => endsBlockPlace k

/-- Whether no value comes after the mark of one. -/
def endsValue (style : Style) (k : Token.Kind) : Bool :=
  match style with
  | .flow => k == .comma || k == .braceClose
  | .single => k == .comma || k == .listClose
  | _ => endsBlockPlace k

/-- What became of a token that was offered to the topmost frame. -/
inductive Offer where
  /-- The frame took it. -/
  | taken (a : Assembly)
  /-- The frame made way for others and did not take it. -/
  | passed (a : Assembly)

/-- The assembly with other frames. -/
def withFrames (fs : List Frame) (a : Assembly) : Assembly := { a with frames := fs }

/-- A list in brackets after a closing bracket. -/
def closeList (o : Opening) (done : List Node) (a : Assembly) : Assembly :=
  a.close o.anchor (.list o done)

/-- A mapping after its end. -/
def closeMap (o : Opening) (done : List (Node × Node)) (a : Assembly) : Assembly :=
  a.close o.anchor (.map o done)

/-- What a frame below does with a token, `fs` being the frames under it. -/
def offer (f : Frame) (fs : List Frame) (t : Token) (a : Assembly) : Except Failure Offer :=
  let under := a.withFrames fs
  let node (setting : Setting) : Except Failure Offer := (a.addNode setting t).map .taken
  match f with
  | .content =>
    match t.kind with
    | .version _ | .handle _ _ | .directive | .documentStart | .documentEnd | .endOfInput =>
      .ok (.passed (a.deliver (emptyScalar t.first)))
    | _ => node .block
  | .node setting p => do
    let m := p.mark.getD t.first
    match t.kind, p.anchor, p.tag with
    | .anchor name, none, some w =>
      let _ ← a.tagName p m
      pure (.taken (under.pushFrame (.node setting ⟨some name, some w, p.mark⟩)))
    | .tag w, some name, none =>
      let p' : Properties := ⟨some name, some w, p.mark⟩
      let _ ← a.tagName p' t.first
      pure (.taken (under.pushFrame (.node setting p')))
    | _, _, _ =>
      let tag ← a.tagName p m
      match ← under.beginNode setting p.anchor tag m t with
      | some b => pure (.taken b)
      | none =>
        let b ← under.addScalar p.anchor (scalarTag true "" tag) "" m
        pure (.passed b)
  | .items style o done =>
    match style, t.kind with
    | .block, .dash => .ok (.taken (under.pushFrame (.item style o done t.last)))
    | .block, .blockEnd => .ok (.taken (under.closeList o done))
    | .unindented, .dash => .ok (.taken (under.pushFrame (.item style o done t.last)))
    | .unindented, _ => .ok (.passed (under.closeList o done))
    | .flow, .comma => .ok (.taken (under.pushFrame (.item style o done t.last)))
    | .flow, .listClose => .ok (.taken (under.closeList o done))
    | _, _ => fail t.first
  | .item style o done m =>
    if endsItem style t.kind then .ok (.passed (a.deliver (emptyScalar m)))
    else
      match style, t.kind with
      | .flow, .listClose => .ok (.taken (under.closeList o done))
      | .flow, .key =>
        let o : Opening := ⟨none, .map, t.first, a.frames.length⟩
        .ok (.taken (a.pushFrame (.key .single o [] t.last)))
      | .flow, _ => node .flow
      | _, _ => node .block
  | .entries style o done =>
    match style, t.kind with
    | .flow, .braceClose => .ok (.taken (under.closeMap o done))
    | .flow, .comma => .ok (.taken (under.pushFrame (.entry o done)))
    | .flow, _ => fail t.first
    | .single, _ => .ok (.passed (under.closeMap o done))
    | _, .key => .ok (.taken (under.pushFrame (.key style o done t.last)))
    | _, .blockEnd => .ok (.taken (under.closeMap o done))
    | _, _ => fail t.first
  | .entry o done =>
    match t.kind with
    | .braceClose => .ok (.taken (under.closeMap o done))
    | .key => .ok (.taken (under.pushFrame (.key .flow o done t.last)))
    | _ => ((under.pushFrame (.bareKey o done)).addNode .flow t).map .taken
  | .key style _ _ m =>
    if endsKey style t.kind then .ok (.passed (a.deliver (emptyScalar m)))
    else node style.setting
  | .bareKey _ _ => node .flow
  | .bareEnd o done key =>
    .ok (.passed (under.pushFrame (.entries .flow o (done ++ [(key, emptyScalar t.first)]))))
  | .keyed style o done key =>
    if t.kind == .value then .ok (.taken (under.pushFrame (.value style o done key t.last)))
    else
      .ok (.passed (under.pushFrame (.entries style o (done ++ [(key, emptyScalar t.first)]))))
  | .value style _ _ _ m =>
    if endsValue style t.kind then .ok (.passed (a.deliver (emptyScalar m)))
    else node style.setting

/-- How often a frame can make way for another in its place. -/
def patience : Frame → Nat
  | .key _ _ _ _ => 2
  | .keyed _ _ _ _ | .value _ _ _ _ _ | .item _ _ _ _ | .bareEnd _ _ _ => 1
  | _ => 0

/-- A bound on how often a token can still be passed on. -/
def size (a : Assembly) : Nat :=
  match a.frames with
  | [] => 0
  | f :: fs => 3 * fs.length + patience f + 1

/-- The assembly with the next token. -/
def feed (t : Token) (a : Assembly) : Except Failure Assembly :=
  match a.frames with
  | [] => a.feedDocument t
  | f :: fs =>
    match a.offer f fs t with
    | .error e => .error e
    | .ok (.taken b) => .ok b
    | .ok (.passed b) => if _h : b.size < a.size then feed t b else fail t.first
termination_by a.size

end Assembly

/-- The document made of some tokens, none if it is empty, given the failure that ends the
tokens if one does. -/
def Node.ofTokens (ts : List Token) (failure : Option Failure) :
    Except Failure (Option Node) := do
  let a ← ts.foldlM (fun a t => a.feed t) Assembly.start
  match failure, a.progress with
  | some e, _ => throw e
  | none, .done root => pure (root.map fun n => n.unrolled a.anchors a.anchors.length)
  | none, _ => pure none

/-- The node that a document holds, none if it is empty. -/
def Node.ofString (s : String) : Except Failure (Option Node) :=
  if s.toList.all isAllowed then
    let (ts, failure) := tokens s
    Node.ofTokens ts failure
  else .error .forbidden

end ApiSuite.Yaml
