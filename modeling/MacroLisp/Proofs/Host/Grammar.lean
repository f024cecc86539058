import MacroLisp.Proofs.Host.Token

namespace MacroLisp.Host

/-- The levels of expressions, the weakest first. -/
inductive Level
  | expression | disjunction | conjunction | inversion | comparison | bitwiseOr | bitwiseXor | bitwiseAnd
  | shift | sum | term | factor | power | primary
  deriving DecidableEq

namespace Level

def next : Level → Level
  | expression => disjunction
  | disjunction => conjunction
  | conjunction => inversion
  | inversion => comparison
  | comparison => bitwiseOr
  | bitwiseOr => bitwiseXor
  | bitwiseXor => bitwiseAnd
  | bitwiseAnd => shift
  | shift => sum
  | sum => term
  | term => factor
  | factor => power
  | power => primary
  | primary => primary

end Level

def BoolOp.level : BoolOp → Level
  | and => .conjunction
  | or => .disjunction

def BoolOp.token : BoolOp → Token
  | and => .mark "and"
  | or => .mark "or"

def UnaryOp.level : UnaryOp → Level
  | not => .inversion
  | invert | plus | minus => .factor

def UnaryOp.token : UnaryOp → Token
  | invert => .mark "~"
  | not => .mark "not"
  | plus => .mark "+"
  | minus => .mark "-"

def BinaryOp.level : BinaryOp → Level
  | bitOr => .bitwiseOr
  | bitXor => .bitwiseXor
  | bitAnd => .bitwiseAnd
  | leftShift | rightShift => .shift
  | add | sub => .sum
  | mult | matMult | div | floorDiv | mod => .term
  | pow => .power

def BinaryOp.token : BinaryOp → Token
  | add => .mark "+"
  | sub => .mark "-"
  | mult => .mark "*"
  | matMult => .mark "@"
  | div => .mark "/"
  | floorDiv => .mark "//"
  | mod => .mark "%"
  | pow => .mark "**"
  | leftShift => .mark "<<"
  | rightShift => .mark ">>"
  | bitOr => .mark "|"
  | bitXor => .mark "^"
  | bitAnd => .mark "&"

def CompareOp.tokens : CompareOp → List Token
  | eq => [.mark "=="]
  | notEq => [.mark "!="]
  | lt => [.mark "<"]
  | ltE => [.mark "<="]
  | gt => [.mark ">"]
  | gtE => [.mark ">="]
  | is => [.mark "is"]
  | isNot => [.mark "is", .mark "not"]
  | isIn => [.mark "in"]
  | notIn => [.mark "not", .mark "in"]

def leaf? : Token → Option Tree
  | .int n => some (.int n)
  | .float x => some (.float x)
  | .string s => some (.string s)
  | .name id => some (.name id)
  | .mark "None" => some .none
  | .mark "True" => some (.bool true)
  | .mark "False" => some (.bool false)
  | .mark _ => none

inductive Kind
  | plain | argument | entry

abbrev Kind.Item : Kind → Type
  | plain => Tree
  | argument => Option String × Tree
  | entry => Tree × Tree

/-- What a stretch of tokens can be. Operands and chain are what follows the first operand of a boolean
operation or a comparison. -/
inductive Category
  | phrase (s : Level)
  | operands (op : BoolOp)
  | chain
  | item (k : Kind)
  | items (k : Kind)

abbrev Category.Result : Category → Type
  | phrase _ => Tree
  | operands _ => List Tree
  | chain => List (CompareOp × Tree)
  | item k => k.Item
  | items k => List k.Item

/-- The arguments of a call: those without a keyword come first. -/
def callItems (args : List Tree) (keywords : List (String × Tree)) : List (Option String × Tree) :=
  args.map (none, ·) ++ keywords.map fun k ↦ (some k.1, k.2)

/-- The stretch of tokens belongs to the category, and this is the result. -/
inductive Derives : (c : Category) → List Token → c.Result → Prop
  | weaken {s : Level} {ts : List Token} {t : Tree} :
    Derives (.phrase s.next) ts t → Derives (.phrase s) ts t
  | conditional {ts us vs : List Token} {body test orelse : Tree} :
    Derives (.phrase .disjunction) ts body → Derives (.phrase .disjunction) us test →
    Derives (.phrase .expression) vs orelse →
    Derives (.phrase .expression) (ts ++ .mark "if" :: us ++ .mark "else" :: vs) (Tree.conditional test body orelse)
  | boolean {op : BoolOp} {ts us : List Token} {t : Tree} {values : List Tree} :
    Derives (.phrase op.level.next) ts t → Derives (.operands op) us values → values ≠ [] →
    Derives (.phrase op.level) (ts ++ us) (Tree.boolean op (t :: values))
  | operands_nil {op : BoolOp} : Derives (.operands op) [] ([] : List Tree)
  | operands_cons {op : BoolOp} {ts us : List Token} {t : Tree} {values : List Tree} :
    Derives (.phrase op.level.next) ts t → Derives (.operands op) us values →
    Derives (.operands op) (op.token :: ts ++ us) (t :: values : List Tree)
  | unary {op : UnaryOp} {ts : List Token} {t : Tree} :
    Derives (.phrase op.level) ts t → Derives (.phrase op.level) (op.token :: ts) (Tree.unary op t)
  | compare {ts us : List Token} {t : Tree} {links : List (CompareOp × Tree)} :
    Derives (.phrase .bitwiseOr) ts t → Derives .chain us links → links ≠ [] →
    Derives (.phrase .comparison) (ts ++ us) (Tree.compare t (links.map Prod.fst) (links.map Prod.snd))
  | chain_nil : Derives .chain [] ([] : List (CompareOp × Tree))
  | chain_cons {op : CompareOp} {ts us : List Token} {t : Tree} {links : List (CompareOp × Tree)} :
    Derives (.phrase .bitwiseOr) ts t → Derives .chain us links →
    Derives .chain (op.tokens ++ ts ++ us) ((op, t) :: links : List (CompareOp × Tree))
  | binary {op : BinaryOp} {ts us : List Token} {l r : Tree} (h : op ≠ .pow) :
    Derives (.phrase op.level) ts l → Derives (.phrase op.level.next) us r →
    Derives (.phrase op.level) (ts ++ op.token :: us) (Tree.binary l op r)
  | power {ts us : List Token} {l r : Tree} :
    Derives (.phrase .primary) ts l → Derives (.phrase .factor) us r →
    Derives (.phrase .power) (ts ++ BinaryOp.pow.token :: us) (Tree.binary l .pow r)
  | member {ts : List Token} {t : Tree} {attr : String} :
    Derives (.phrase .primary) ts t →
    Derives (.phrase .primary) (ts ++ [.mark ".", .name attr]) (Tree.member t attr)
  | call {ts us : List Token} {f : Tree} {args : List Tree} {keywords : List (String × Tree)} :
    Derives (.phrase .primary) ts f → Derives (.items .argument) us (callItems args keywords) →
    Derives (.phrase .primary) (ts ++ .mark "(" :: us ++ [.mark ")"]) (Tree.call f args keywords)
  | leaf {tok : Token} {t : Tree} : leaf? tok = some t → Derives (.phrase .primary) [tok] t
  | group {ts : List Token} {t : Tree} :
    Derives (.phrase .expression) ts t → Derives (.phrase .primary) (.mark "(" :: ts ++ [.mark ")"]) t
  | tuple_nil : Derives (.phrase .primary) [.mark "(", .mark ")"] (Tree.tuple [])
  | tuple_cons {ts us : List Token} {t : Tree} {items : List Tree} :
    Derives (.phrase .expression) ts t → Derives (.items .plain) us items →
    Derives (.phrase .primary) (.mark "(" :: ts ++ .mark "," :: us ++ [.mark ")"]) (Tree.tuple (t :: items))
  | list {ts : List Token} {items : List Tree} :
    Derives (.items .plain) ts items → Derives (.phrase .primary) (.mark "[" :: ts ++ [.mark "]"]) (Tree.list items)
  | dict {ts : List Token} {entries : List (Tree × Tree)} :
    Derives (.items .entry) ts entries →
    Derives (.phrase .primary) (.mark "\x7b" :: ts ++ [.mark "\x7d"])
      (Tree.dict (entries.map Prod.fst) (entries.map Prod.snd))
  | plain {ts : List Token} {t : Tree} : Derives (.phrase .expression) ts t → Derives (.item .plain) ts t
  | positional {ts : List Token} {t : Tree} :
    Derives (.phrase .expression) ts t → Derives (.item .argument) ts ((none, t) : Option String × Tree)
  | keyword {ts : List Token} {t : Tree} {key : String} :
    Derives (.phrase .expression) ts t →
    Derives (.item .argument) (.name key :: .mark "=" :: ts) ((some key, t) : Option String × Tree)
  | entry {ts us : List Token} {key value : Tree} :
    Derives (.phrase .expression) ts key → Derives (.phrase .expression) us value →
    Derives (.item .entry) (ts ++ .mark ":" :: us) ((key, value) : Tree × Tree)
  | items_nil {k : Kind} : Derives (.items k) [] ([] : List k.Item)
  | items_one {k : Kind} {ts : List Token} {v : k.Item} :
    Derives (.item k) ts v → Derives (.items k) ts ([v] : List k.Item)
  | items_cons {k : Kind} {ts us : List Token} {v : k.Item} {vs : List k.Item} :
    Derives (.item k) ts v → Derives (.items k) us vs →
    Derives (.items k) (ts ++ .mark "," :: us) (v :: vs : List k.Item)

/-- The text can be read as the tree. -/
def Reads (A : Alphabet) (text : String) (t : Tree) : Prop :=
  ∃ ts, lex A text.toList = some ts ∧ Derives (.phrase .expression) ts t

end MacroLisp.Host
