import MacroLisp.Host.Source
import MacroLisp.Name.Identifier
import MacroLisp.Proofs.Text.Runs

namespace MacroLisp.Host

def commaBlank : List Char := [',', ' ']

inductive Tree
  | none
  | bool (value : Bool)
  | int (value : Nat)
  | float (value : Binary64)
  | string (value : String)
  | name (id : String)
  | member (value : Tree) (attr : String)
  | binary (left : Tree) (op : BinaryOp) (right : Tree)
  | unary (op : UnaryOp) (operand : Tree)
  | boolean (op : BoolOp) (values : List Tree)
  | compare (left : Tree) (ops : List CompareOp) (comparators : List Tree)
  | conditional (test body orelse : Tree)
  | call (func : Tree) (args : List Tree) (keywords : List (String × Tree))
  | list (items : List Tree)
  | tuple (items : List Tree)
  | dict (keys values : List Tree)

/-- A negative number is the negation of one that is not. -/
def Constant.tree : Constant → Tree
  | none => .none
  | bool b => .bool b
  | int n => if n < 0 then .unary .minus (.int n.toInt.natAbs) else .int n.toInt.natAbs
  | float x => if x.isNegative then .unary .minus (.float (x.withSign false)) else .float x
  | string s => .string s

/-- Infinities and NaN have no notation. -/
def Constant.isWritable : Constant → Bool
  | float x => x.isFinite
  | _ => true

def reservedWords : List String :=
  ["False", "None", "True", "and", "as", "assert", "async", "await", "break", "class", "continue", "def",
    "del", "elif", "else", "except", "finally", "for", "from", "global", "if", "import", "in", "is", "lambda",
    "nonlocal", "not", "or", "pass", "raise", "return", "try", "while", "with", "yield"]

/-- The characters of identifiers. Beyond ASCII the choice is open. -/
structure Alphabet where
  start : Char → Bool
  part : Char → Bool
  part_of_start : ∀ c, start c = true → part c = true
  start_ascii : ∀ c, c.toNat < 128 → start c = (c == '_' || c.isAlpha)
  part_ascii : ∀ c, c.toNat < 128 → part c = (c == '_' || c.isAlphanum)

namespace Alphabet

def isIdentifierChars (A : Alphabet) : List Char → Bool
  | [] => false
  | c :: cs => A.start c && cs.all A.part

def isName (A : Alphabet) (id : String) : Bool := A.isIdentifierChars id.toList && !reservedWords.contains id

theorem eq_of_ascii {p q : Char → Bool} (h : ∀ n < 128, p (Char.ofNat n) = q (Char.ofNat n)) (c : Char)
    (hc : c.toNat < 128) : p c = q c := by
  rw [← Char.ofNat_toNat c]
  exact h c.toNat hc

def unicode : Alphabet where
  start := Name.isIdentifierStart
  part := Name.isIdentifierPart
  part_of_start c h := by
    simp only [Name.isIdentifierStart] at h
    simp only [Name.isIdentifierPart, h, Bool.true_or]
  start_ascii := eq_of_ascii (by decide)
  part_ascii := eq_of_ascii (by decide)

end Alphabet

namespace Expr

mutual

def tree : Expr → Tree
  | constant c => c.tree
  | name id _ => .name id
  | member value attr _ => .member (tree value) attr
  | binary left op right => .binary (tree left) op (tree right)
  | unary op operand => .unary op (tree operand)
  | boolean op values => .boolean op (trees values)
  | compare left ops comparators => .compare (tree left) ops (trees comparators)
  | conditional test body orelse => .conditional (tree test) (tree body) (tree orelse)
  | call func args keywords => .call (tree func) (trees args) (keywordTrees keywords)
  | list items => .list (trees items)
  | tuple items => .tuple (trees items)
  | dict keys values => .dict (trees keys) (trees values)

def trees : List Expr → List Tree
  | [] => []
  | e :: es => tree e :: trees es

def keywordTrees : List (String × Expr) → List (String × Tree)
  | [] => []
  | (key, e) :: ks => (key, tree e) :: keywordTrees ks

end

mutual

/-- Whether there is a notation for the expression: operators have operands, keys have values, numbers are
finite and names are names. -/
def isWritable (A : Alphabet) : Expr → Bool
  | constant c => c.isWritable
  | name id _ => A.isName id
  | member value attr _ => A.isName attr && isWritable A value
  | binary left _ right => isWritable A left && isWritable A right
  | unary _ operand => isWritable A operand
  | boolean _ values => 2 ≤ values.length && areWritable A values
  | compare left ops comparators =>
    ops.length == comparators.length && 1 ≤ ops.length && isWritable A left && areWritable A comparators
  | conditional test body orelse => isWritable A test && isWritable A body && isWritable A orelse
  | call func args keywords => isWritable A func && areWritable A args && areKeywordsWritable A keywords
  | list items => areWritable A items
  | tuple items => areWritable A items
  | dict keys values => keys.length == values.length && areWritable A keys && areWritable A values

def areWritable (A : Alphabet) : List Expr → Bool
  | [] => true
  | e :: es => isWritable A e && areWritable A es

def areKeywordsWritable (A : Alphabet) : List (String × Expr) → Bool
  | [] => true
  | (key, e) :: ks => A.isName key && isWritable A e && areKeywordsWritable A ks

end

variable {A : Alphabet} {es : List Expr} {ks : List (String × Expr)}

theorem trees_eq_map (es : List Expr) : trees es = es.map tree := by
  induction es with
  | nil => rfl
  | cons e es ih => simp only [trees, ih, List.map_cons]

theorem keywordTrees_eq_map (ks : List (String × Expr)) : keywordTrees ks = ks.map fun k ↦ (k.1, tree k.2) := by
  induction ks with
  | nil => rfl
  | cons k ks ih => simp only [keywordTrees, ih, List.map_cons]

theorem keywordSources_eq_map (ks : List (String × Expr)) :
    keywordSources ks = ks.map fun k ↦ k.1 ++ "=" ++ enclose .test k.2 k.2.source := by
  induction ks with
  | nil => rfl
  | cons k ks ih => simp only [keywordSources, ih, List.map_cons]

theorem areWritable_iff : areWritable A es = true ↔ ∀ e ∈ es, e.isWritable A = true := by
  induction es with
  | nil => simp [areWritable]
  | cons e es ih => simp [areWritable, ih]

theorem areKeywordsWritable_iff :
    areKeywordsWritable A ks = true ↔ ∀ k ∈ ks, A.isName k.1 = true ∧ k.2.isWritable A = true := by
  induction ks with
  | nil => simp [areKeywordsWritable]
  | cons k ks ih => simp [areKeywordsWritable, ih, and_assoc]

theorem toList_source_boolean (op : BoolOp) (e : Expr) (es : List Expr) :
    (boolean op (e :: es)).source.toList = (e.enclose op.strength.next e.source).toList ++
      es.flatMap fun e ↦ ' ' :: op.symbol.toList ++ ' ' :: (e.enclose op.strength.next e.source).toList := by
  simp [source, Text.intercalate_cons, List.flatMap_map]

theorem toList_source_compare (left : Expr) (ops : List CompareOp) (comparators : List Expr) :
    (compare left ops comparators).source.toList = (left.enclose .bitOr left.source).toList ++
      (ops.zip comparators).flatMap fun p ↦ ' ' :: p.1.symbol.toList ++ ' ' :: (p.2.enclose .bitOr p.2.source).toList := by
  simp [source, List.flatMap_map, List.zip_map_right]

theorem toList_source_list (items : List Expr) : (list items).source.toList =
    "[".toList ++ commaBlank.intercalate (items.map fun e ↦ (e.enclose .test e.source).toList) ++ "]".toList := by
  simp [source, commaBlank, Function.comp_def]

theorem toList_source_tuple (items : List Expr) : (tuple items).source.toList =
    "(".toList ++ commaBlank.intercalate (items.map fun e ↦ (e.enclose .test e.source).toList) ++
      (if items.length = 1 then ",)" else ")").toList := by
  simp [source, commaBlank, Function.comp_def]

theorem toList_source_dict (keys values : List Expr) : (dict keys values).source.toList =
    "\x7b".toList ++ commaBlank.intercalate ((keys.zip values).map fun p ↦
      (p.1.enclose .test p.1.source ++ ": " ++ p.2.enclose .test p.2.source).toList) ++ "\x7d".toList := by
  simp [source, commaBlank, Function.comp_def, List.zip_map]

theorem toList_source_call (func : Expr) (args : List Expr) (keywords : List (String × Expr)) :
    (call func args keywords).source.toList = (func.enclose .atom func.source).toList ++ ("(".toList ++
      commaBlank.intercalate ((args.map fun e ↦ (e.enclose .test e.source).toList) ++
        keywords.map fun k ↦ (k.1 ++ "=" ++ k.2.enclose .test k.2.source).toList) ++ ")".toList) := by
  simp [source, commaBlank, Function.comp_def, keywordSources_eq_map]

theorem induct {P : Expr → Prop}
    (constant : ∀ c, P (constant c)) (name : ∀ id ctx, P (name id ctx))
    (member : ∀ value attr ctx, P value → P (member value attr ctx))
    (binary : ∀ left op right, P left → P right → P (binary left op right))
    (unary : ∀ op operand, P operand → P (unary op operand))
    (boolean : ∀ op values, (∀ e ∈ values, P e) → P (boolean op values))
    (compare : ∀ left ops comparators, P left → (∀ e ∈ comparators, P e) → P (compare left ops comparators))
    (conditional : ∀ test body orelse, P test → P body → P orelse → P (conditional test body orelse))
    (call : ∀ func args keywords, P func → (∀ e ∈ args, P e) → (∀ k ∈ keywords, P k.2) →
      P (call func args keywords))
    (list : ∀ items, (∀ e ∈ items, P e) → P (list items))
    (tuple : ∀ items, (∀ e ∈ items, P e) → P (tuple items))
    (dict : ∀ keys values, (∀ e ∈ keys, P e) → (∀ e ∈ values, P e) → P (dict keys values)) (e : Expr) : P e := by
  refine @Expr.rec P (fun es ↦ ∀ e ∈ es, P e) (fun ks ↦ ∀ k ∈ ks, P k.2) (fun k ↦ P k.2) constant name member
    binary unary boolean compare conditional call list tuple dict ?_ ?_ ?_ ?_ ?_ e
  · intro e he
    cases he
  · intro e es he hes e' he'
    rcases List.mem_cons.mp he' with rfl | hmem
    · exact he
    · exact hes e' hmem
  · intro k hk
    cases hk
  · intro k ks hk hks k' hk'
    rcases List.mem_cons.mp hk' with rfl | hmem
    · exact hk
    · exact hks k' hmem
  · intro key e he
    exact he

end Expr

theorem Stmt.induct {P : Stmt → Prop} (expr : ∀ value, P (expr value))
    (assign : ∀ targets value, P (assign targets value)) (imports : ∀ names, P (imports names))
    (ifElse : ∀ test body orelse, (∀ s ∈ body, P s) → (∀ s ∈ orelse, P s) → P (ifElse test body orelse)) (s : Stmt) :
    P s := by
  refine @Stmt.rec P (fun ss ↦ ∀ s ∈ ss, P s) expr assign imports ifElse ?_ ?_ s
  · intro s hs
    cases hs
  · intro s ss hs hss s' hs'
    rcases List.mem_cons.mp hs' with rfl | hmem
    · exact hs
    · exact hss s' hmem

end MacroLisp.Host
