import MacroLisp.Proofs.Host.Constant
import MacroLisp.Proofs.Host.Tree

namespace MacroLisp.Host

namespace Expr

mutual

def withOneNaN : Expr → Expr
  | constant c => constant c.withOneNaN
  | name id ctx => name id ctx
  | member value attr ctx => member (withOneNaN value) attr ctx
  | binary left op right => binary (withOneNaN left) op (withOneNaN right)
  | unary op operand => unary op (withOneNaN operand)
  | boolean op values => boolean op (allWithOneNaN values)
  | compare left ops comparators => compare (withOneNaN left) ops (allWithOneNaN comparators)
  | conditional test body orelse => conditional (withOneNaN test) (withOneNaN body) (withOneNaN orelse)
  | call func args keywords => call (withOneNaN func) (allWithOneNaN args) (keywordsWithOneNaN keywords)
  | list items => list (allWithOneNaN items)
  | tuple items => tuple (allWithOneNaN items)
  | dict keys values => dict (allWithOneNaN keys) (allWithOneNaN values)

def allWithOneNaN : List Expr → List Expr
  | [] => []
  | e :: es => withOneNaN e :: allWithOneNaN es

def keywordsWithOneNaN : List (String × Expr) → List (String × Expr)
  | [] => []
  | (key, e) :: ks => (key, withOneNaN e) :: keywordsWithOneNaN ks

end

@[simp] theorem allWithOneNaN_eq_map (es : List Expr) : allWithOneNaN es = es.map withOneNaN := by
  induction es with
  | nil => rfl
  | cons e es ih => simp only [allWithOneNaN, ih, List.map_cons]

@[simp] theorem keywordsWithOneNaN_eq_map (ks : List (String × Expr)) :
    keywordsWithOneNaN ks = ks.map fun k ↦ (k.1, k.2.withOneNaN) := by
  induction ks with
  | nil => rfl
  | cons k ks ih => simp only [keywordsWithOneNaN, ih, List.map_cons]

end Expr

namespace Stmt

mutual

def withOneNaN : Stmt → Stmt
  | expr value => expr value.withOneNaN
  | assign targets value => assign (targets.map Expr.withOneNaN) value.withOneNaN
  | imports names => imports names
  | ifElse test body orelse => ifElse test.withOneNaN (allWithOneNaN body) (allWithOneNaN orelse)

def allWithOneNaN : List Stmt → List Stmt
  | [] => []
  | s :: ss => withOneNaN s :: allWithOneNaN ss

end

@[simp] theorem allWithOneNaN_eq_map (ss : List Stmt) : allWithOneNaN ss = ss.map withOneNaN := by
  induction ss with
  | nil => rfl
  | cons s ss ih => simp only [allWithOneNaN, ih, List.map_cons]

end Stmt

def Module.withOneNaN (m : Module) : Module := ⟨m.body.map Stmt.withOneNaN⟩

def Context.datum : Context → Datum
  | load => .sign "Load"
  | store => .sign "Store"

theorem Context.text_datum (ctx : Context) : ctx.datum.text = ctx.dump := by
  cases ctx <;> rfl

theorem Context.regular_datum (ctx : Context) : ctx.datum.Regular := by
  cases ctx <;> exact .sign rfl

theorem BinaryOp.regular_sign (op : BinaryOp) : (Datum.sign op.kind).Regular := by
  cases op <;> exact .sign rfl

theorem UnaryOp.regular_sign (op : UnaryOp) : (Datum.sign op.kind).Regular := by
  cases op <;> exact .sign rfl

theorem BoolOp.regular_sign (op : BoolOp) : (Datum.sign op.kind).Regular := by
  cases op <;> exact .sign rfl

theorem CompareOp.regular_sign (op : CompareOp) : (Datum.sign op.kind).Regular := by
  cases op <;> exact .sign rfl

theorem Context.datum_injective : Function.Injective Context.datum := by
  intro ctx ctx' h
  cases ctx <;> cases ctx' <;> first | rfl | simp [datum, Datum.sign] at h

theorem BinaryOp.kind_injective : Function.Injective BinaryOp.kind := by
  intro op op' h
  cases op <;> cases op' <;> first | rfl | simp [kind] at h

theorem UnaryOp.kind_injective : Function.Injective UnaryOp.kind := by
  intro op op' h
  cases op <;> cases op' <;> first | rfl | simp [kind] at h

theorem BoolOp.kind_injective : Function.Injective BoolOp.kind := by
  intro op op' h
  cases op <;> cases op' <;> first | rfl | simp [kind] at h

theorem CompareOp.kind_injective : Function.Injective CompareOp.kind := by
  intro op op' h
  cases op <;> cases op' <;> first | rfl | simp [kind] at h

theorem map_eq_of_map_eq {α β γ : Type} {f : α → β} {g : α → γ} {xs ys : List α}
    (h : ∀ x ∈ xs, ∀ y, f x = f y → g x = g y) (he : xs.map f = ys.map f) : xs.map g = ys.map g := by
  induction xs generalizing ys with
  | nil =>
    obtain rfl : ys = [] := by simpa using he
    rfl
  | cons x xs ih =>
    cases ys with
    | nil => cases he
    | cons y ys =>
      obtain ⟨hxy, htail⟩ := List.cons.inj he
      rw [List.map_cons, List.map_cons, h x (by simp) y hxy, ih (fun x' hx' ↦ h x' (by simp [hx'])) htail]

theorem map_map_eq {α β : Type} {f : α → α} {g : α → β} {l : List α} (h : ∀ x ∈ l, g (f x) = g x) :
    (l.map f).map g = l.map g := by
  rw [List.map_map]
  exact List.map_congr_left h

namespace Expr

mutual

def datum : Expr → Datum
  | constant c => .record "Constant" [("value", c.datum)]
  | name id ctx => .record "Name" [("id", .string id), ("ctx", ctx.datum)]
  | member value attr ctx =>
    .record "Attribute" [("value", datum value), ("attr", .string attr), ("ctx", ctx.datum)]
  | binary left op right => .record "BinOp" [("left", datum left), ("op", .sign op.kind), ("right", datum right)]
  | unary op operand => .record "UnaryOp" [("op", .sign op.kind), ("operand", datum operand)]
  | boolean op values => .record "BoolOp" [("op", .sign op.kind), ("values", .list (data values))]
  | compare left ops comparators =>
    .record "Compare" [("left", datum left), ("ops", .list (ops.map fun op ↦ .sign op.kind)),
      ("comparators", .list (data comparators))]
  | conditional test body orelse =>
    .record "IfExp" [("test", datum test), ("body", datum body), ("orelse", datum orelse)]
  | call func args keywords =>
    .record "Call" [("func", datum func), ("args", .list (data args)), ("keywords", .list (keywordData keywords))]
  | list items => .record "List" [("elts", .list (data items)), ("ctx", Context.datum .load)]
  | tuple items => .record "Tuple" [("elts", .list (data items)), ("ctx", Context.datum .load)]
  | dict keys values => .record "Dict" [("keys", .list (data keys)), ("values", .list (data values))]

def data : List Expr → List Datum
  | [] => []
  | e :: es => datum e :: data es

def keywordData : List (String × Expr) → List Datum
  | [] => []
  | (key, e) :: ks => .record "keyword" [("arg", .string key), ("value", datum e)] :: keywordData ks

end

def keywordDatum (k : String × Expr) : Datum := .record "keyword" [("arg", .string k.1), ("value", k.2.datum)]

@[simp] theorem data_eq_map (es : List Expr) : data es = es.map datum := by
  induction es with
  | nil => rfl
  | cons e es ih => simp only [data, ih, List.map_cons]

@[simp] theorem keywordData_eq_map (ks : List (String × Expr)) : keywordData ks = ks.map keywordDatum := by
  induction ks with
  | nil => rfl
  | cons k ks ih => simp only [keywordData, ih, List.map_cons, keywordDatum]

theorem dumpKeywords_eq_map (ks : List (String × Expr)) : dumpKeywords ks =
    ks.map fun k ↦ nodeText "keyword" [("arg", stringText k.1), ("value", k.2.dump)] := by
  induction ks with
  | nil => rfl
  | cons k ks ih => simp only [dumpKeywords, ih, List.map_cons]

theorem text_datum (e : Expr) : e.datum.text = e.dump := by
  induction e using induct with
  | constant c => simp only [datum, dump, Datum.text, Datum.fieldTexts, Constant.text_datum]
  | name id ctx => simp only [datum, dump, Datum.text, Datum.fieldTexts, Context.text_datum]
  | member value attr ctx ih => simp only [datum, dump, Datum.text, Datum.fieldTexts, Context.text_datum, ih]
  | binary left op right ihl ihr => simp only [datum, dump, Datum.text, Datum.fieldTexts, Datum.text_sign, ihl, ihr]
  | unary op operand ih => simp only [datum, dump, Datum.text, Datum.fieldTexts, Datum.text_sign, ih]
  | boolean op values ih =>
    simp only [datum, dump, Datum.text, Datum.fieldTexts, Datum.text_sign, data_eq_map, Datum.texts_map ih,
      dumpAll_eq_map]
  | compare left ops comparators ihl ih =>
    have hops := Datum.texts_map (l := ops) fun op _ ↦ Datum.text_sign op.kind
    simp only [datum, dump, Datum.text, Datum.fieldTexts, ihl, hops, data_eq_map, Datum.texts_map ih, dumpAll_eq_map]
  | conditional test body orelse iht ihb iho => simp only [datum, dump, Datum.text, Datum.fieldTexts, iht, ihb, iho]
  | call func args keywords ihf iha ihk =>
    have hkeywords := Datum.texts_map (l := keywords) (g := keywordDatum)
      (t := fun k ↦ nodeText "keyword" [("arg", stringText k.1), ("value", k.2.dump)])
      fun k hk ↦ by simp only [keywordDatum, Datum.text, Datum.fieldTexts, ihk k hk]
    simp only [datum, dump, Datum.text, Datum.fieldTexts, ihf, data_eq_map, Datum.texts_map iha, dumpAll_eq_map,
      keywordData_eq_map, hkeywords, dumpKeywords_eq_map]
  | list items ih =>
    simp only [datum, dump, Datum.text, Datum.fieldTexts, Context.text_datum, Context.dump, data_eq_map,
      Datum.texts_map ih, dumpAll_eq_map]
  | tuple items ih =>
    simp only [datum, dump, Datum.text, Datum.fieldTexts, Context.text_datum, Context.dump, data_eq_map,
      Datum.texts_map ih, dumpAll_eq_map]
  | dict keys values ihk ihv =>
    simp only [datum, dump, Datum.text, Datum.fieldTexts, data_eq_map, Datum.texts_map ihk, Datum.texts_map ihv,
      dumpAll_eq_map]

theorem regular_datum (e : Expr) : e.datum.Regular := by
  induction e using induct with
  | constant c => exact .record rfl (by simp; decide) (by simp [c.regular_datum])
  | name id ctx => exact .record rfl (by simp; decide) (by simp [ctx.regular_datum, Datum.Regular.string])
  | member value attr ctx ih =>
    exact .record rfl (by simp; decide) (by simp [ih, ctx.regular_datum, Datum.Regular.string])
  | binary left op right ihl ihr => exact .record rfl (by simp; decide) (by simp [ihl, ihr, op.regular_sign])
  | unary op operand ih => exact .record rfl (by simp; decide) (by simp [ih, op.regular_sign])
  | boolean op values ih => exact .record rfl (by simp; decide) (by simp [Datum.Regular.map ih, op.regular_sign])
  | compare left ops comparators ihl ih =>
    have hops := Datum.Regular.map (l := ops) fun op _ ↦ op.regular_sign
    exact .record rfl (by simp; decide) (by simp [ihl, Datum.Regular.map ih, hops])
  | conditional test body orelse iht ihb iho => exact .record rfl (by simp; decide) (by simp [iht, ihb, iho])
  | call func args keywords ihf iha ihk =>
    have hkeywords := Datum.Regular.map (l := keywords) (g := keywordDatum)
      fun k hk ↦ .record rfl (by simp; decide) (by simp [ihk k hk, Datum.Regular.string])
    exact .record rfl (by simp; decide) (by simp [ihf, Datum.Regular.map iha, hkeywords])
  | list items ih => exact .record rfl (by simp; decide) (by simp [Datum.Regular.map ih, Context.regular_datum])
  | tuple items ih => exact .record rfl (by simp; decide) (by simp [Datum.Regular.map ih, Context.regular_datum])
  | dict keys values ihk ihv =>
    exact .record rfl (by simp; decide) (by simp [Datum.Regular.map ihk, Datum.Regular.map ihv])

theorem withOneNaN_eq {e e' : Expr} (h : e.datum = e'.datum) : e.withOneNaN = e'.withOneNaN := by
  induction e using induct generalizing e' with
  | constant c =>
    cases e' with
    | constant c' =>
      have hc : c.datum = c'.datum := by simpa [datum] using h
      rw [withOneNaN, withOneNaN, Constant.withOneNaN_eq hc]
    | _ => simp [datum] at h
  | name id ctx =>
    cases e' with
    | name id' ctx' =>
      obtain ⟨hid, hctx⟩ : id = id' ∧ ctx.datum = ctx'.datum := by simpa [datum] using h
      rw [hid, Context.datum_injective hctx]
    | _ => simp [datum] at h
  | member value attr ctx ih =>
    cases e' with
    | member value' attr' ctx' =>
      obtain ⟨hvalue, hattr, hctx⟩ : value.datum = value'.datum ∧ attr = attr' ∧ ctx.datum = ctx'.datum := by
        simpa [datum] using h
      rw [withOneNaN, withOneNaN, ih hvalue, hattr, Context.datum_injective hctx]
    | _ => simp [datum] at h
  | binary left op right ihl ihr =>
    cases e' with
    | binary left' op' right' =>
      obtain ⟨hleft, hop, hright⟩ : left.datum = left'.datum ∧ op.kind = op'.kind ∧ right.datum = right'.datum := by
        simpa [datum, Datum.sign] using h
      rw [withOneNaN, withOneNaN, ihl hleft, BinaryOp.kind_injective hop, ihr hright]
    | _ => simp [datum] at h
  | unary op operand ih =>
    cases e' with
    | unary op' operand' =>
      obtain ⟨hop, hoperand⟩ : op.kind = op'.kind ∧ operand.datum = operand'.datum := by
        simpa [datum, Datum.sign] using h
      rw [withOneNaN, withOneNaN, UnaryOp.kind_injective hop, ih hoperand]
    | _ => simp [datum] at h
  | boolean op values ih =>
    cases e' with
    | boolean op' values' =>
      obtain ⟨hop, hvalues⟩ : op.kind = op'.kind ∧ values.map datum = values'.map datum := by
        simpa [datum, Datum.sign] using h
      simp only [withOneNaN, BoolOp.kind_injective hop, allWithOneNaN_eq_map, map_eq_of_map_eq ih hvalues]
    | _ => simp [datum] at h
  | compare left ops comparators ihl ih =>
    cases e' with
    | compare left' ops' comparators' =>
      obtain ⟨hleft, hops, hcomparators⟩ : left.datum = left'.datum ∧
          ops.map (fun op ↦ Datum.sign op.kind) = ops'.map (fun op ↦ Datum.sign op.kind) ∧
          comparators.map datum = comparators'.map datum := by
        simpa only [datum, data_eq_map, Datum.record.injEq, List.cons.injEq, Prod.mk.injEq, Datum.list.injEq, true_and,
          and_true] using h
      have hinj : Function.Injective fun op : CompareOp ↦ Datum.sign op.kind :=
        Datum.sign_injective.comp CompareOp.kind_injective
      simp only [withOneNaN, ihl hleft, List.map_injective_iff.mpr hinj hops, allWithOneNaN_eq_map,
        map_eq_of_map_eq ih hcomparators]
    | _ => simp [datum] at h
  | conditional test body orelse iht ihb iho =>
    cases e' with
    | conditional test' body' orelse' =>
      obtain ⟨htest, hbody, horelse⟩ : test.datum = test'.datum ∧ body.datum = body'.datum ∧
          orelse.datum = orelse'.datum := by simpa [datum] using h
      rw [withOneNaN, withOneNaN, iht htest, ihb hbody, iho horelse]
    | _ => simp [datum] at h
  | call func args keywords ihf iha ihk =>
    cases e' with
    | call func' args' keywords' =>
      obtain ⟨hfunc, hargs, hkeywords⟩ : func.datum = func'.datum ∧ args.map datum = args'.map datum ∧
          keywords.map keywordDatum = keywords'.map keywordDatum := by simpa [datum] using h
      have hkeyword : ∀ k ∈ keywords, ∀ k' : String × Expr, keywordDatum k = keywordDatum k' →
          (k.1, k.2.withOneNaN) = (k'.1, k'.2.withOneNaN) := by
        intro k hk k' hd
        obtain ⟨hkey, hvalue⟩ : k.1 = k'.1 ∧ k.2.datum = k'.2.datum := by simpa [keywordDatum] using hd
        rw [hkey, ihk k hk hvalue]
      simp only [withOneNaN, ihf hfunc, allWithOneNaN_eq_map, map_eq_of_map_eq iha hargs, keywordsWithOneNaN_eq_map,
        map_eq_of_map_eq hkeyword hkeywords]
    | _ => simp [datum] at h
  | list items ih =>
    cases e' with
    | list items' =>
      have hitems : items.map datum = items'.map datum := by simpa [datum] using h
      simp only [withOneNaN, allWithOneNaN_eq_map, map_eq_of_map_eq ih hitems]
    | _ => simp [datum] at h
  | tuple items ih =>
    cases e' with
    | tuple items' =>
      have hitems : items.map datum = items'.map datum := by simpa [datum] using h
      simp only [withOneNaN, allWithOneNaN_eq_map, map_eq_of_map_eq ih hitems]
    | _ => simp [datum] at h
  | dict keys values ihk ihv =>
    cases e' with
    | dict keys' values' =>
      obtain ⟨hkeys, hvalues⟩ : keys.map datum = keys'.map datum ∧ values.map datum = values'.map datum := by
        simpa [datum] using h
      simp only [withOneNaN, allWithOneNaN_eq_map, map_eq_of_map_eq ihk hkeys, map_eq_of_map_eq ihv hvalues]
    | _ => simp [datum] at h

theorem datum_withOneNaN (e : Expr) : e.withOneNaN.datum = e.datum := by
  induction e using induct with
  | constant c => simp only [withOneNaN, datum, c.datum_withOneNaN]
  | name id ctx => rfl
  | member value attr ctx ih => simp only [withOneNaN, datum, ih]
  | binary left op right ihl ihr => simp only [withOneNaN, datum, ihl, ihr]
  | unary op operand ih => simp only [withOneNaN, datum, ih]
  | boolean op values ih => simp only [withOneNaN, datum, data_eq_map, allWithOneNaN_eq_map, map_map_eq ih]
  | compare left ops comparators ihl ih =>
    simp only [withOneNaN, datum, ihl, data_eq_map, allWithOneNaN_eq_map, map_map_eq ih]
  | conditional test body orelse iht ihb iho => simp only [withOneNaN, datum, iht, ihb, iho]
  | call func args keywords ihf iha ihk =>
    have hkeywords := map_map_eq (f := fun k : String × Expr ↦ (k.1, k.2.withOneNaN)) (g := keywordDatum) (l := keywords)
      fun k hk ↦ by simp [keywordDatum, ihk k hk]
    simp only [withOneNaN, datum, ihf, data_eq_map, allWithOneNaN_eq_map, map_map_eq iha, keywordData_eq_map,
      keywordsWithOneNaN_eq_map, hkeywords]
  | list items ih => simp only [withOneNaN, datum, data_eq_map, allWithOneNaN_eq_map, map_map_eq ih]
  | tuple items ih => simp only [withOneNaN, datum, data_eq_map, allWithOneNaN_eq_map, map_map_eq ih]
  | dict keys values ihk ihv =>
    simp only [withOneNaN, datum, data_eq_map, allWithOneNaN_eq_map, map_map_eq ihk, map_map_eq ihv]

end Expr

namespace Alias

def datum (a : Alias) : Datum :=
  .record "alias" (("name", .string a.name) :: (a.asName.map fun name ↦ ("asname", Datum.string name)).toList)

theorem text_datum (a : Alias) : a.datum.text = a.dump := by
  rcases a with ⟨name, _ | asName⟩ <;> simp [datum, dump, Datum.text, Datum.fieldTexts]

theorem regular_datum (a : Alias) : a.datum.Regular := by
  rcases a with ⟨name, _ | asName⟩ <;> exact .record rfl (by simp; decide) (by simp [Datum.Regular.string])

theorem datum_injective : Function.Injective datum := by
  rintro ⟨name, _ | asName⟩ ⟨name', _ | asName'⟩ h
  · simpa [datum] using h
  · simp [datum] at h
  · simp [datum] at h
  · simpa [datum] using h

end Alias

namespace Stmt

mutual

def datum : Stmt → Datum
  | expr value => .record "Expr" [("value", value.datum)]
  | assign targets value => .record "Assign" [("targets", .list (targets.map Expr.datum)), ("value", value.datum)]
  | imports names => .record "Import" [("names", .list (names.map Alias.datum))]
  | ifElse test body orelse =>
    .record "If" [("test", test.datum), ("body", .list (data body)), ("orelse", .list (data orelse))]

def data : List Stmt → List Datum
  | [] => []
  | s :: ss => datum s :: data ss

end

@[simp] theorem data_eq_map (ss : List Stmt) : data ss = ss.map datum := by
  induction ss with
  | nil => rfl
  | cons s ss ih => simp only [data, ih, List.map_cons]

theorem text_datum (s : Stmt) : s.datum.text = s.dump := by
  induction s using induct with
  | expr value => simp only [datum, dump, Datum.text, Datum.fieldTexts, Expr.text_datum]
  | assign targets value =>
    have htargets := Datum.texts_map (l := targets) fun e _ ↦ e.text_datum
    simp only [datum, dump, Datum.text, Datum.fieldTexts, htargets, Expr.text_datum]
  | imports names =>
    have hnames := Datum.texts_map (l := names) fun a _ ↦ a.text_datum
    simp only [datum, dump, Datum.text, Datum.fieldTexts, hnames]
  | ifElse test body orelse ihb iho =>
    simp only [datum, dump, Datum.text, Datum.fieldTexts, Expr.text_datum, data_eq_map, Datum.texts_map ihb,
      Datum.texts_map iho, dumpAll_eq_map]

theorem regular_datum (s : Stmt) : s.datum.Regular := by
  induction s using induct with
  | expr value => exact .record rfl (by simp; decide) (by simp [value.regular_datum])
  | assign targets value =>
    have htargets := Datum.Regular.map (l := targets) fun e _ ↦ e.regular_datum
    exact .record rfl (by simp; decide) (by simp [value.regular_datum, htargets])
  | imports names =>
    have hnames := Datum.Regular.map (l := names) fun a _ ↦ a.regular_datum
    exact .record rfl (by simp; decide) (by simp [hnames])
  | ifElse test body orelse ihb iho =>
    exact .record rfl (by simp; decide) (by simp [test.regular_datum, Datum.Regular.map ihb, Datum.Regular.map iho])

theorem withOneNaN_eq {s s' : Stmt} (h : s.datum = s'.datum) : s.withOneNaN = s'.withOneNaN := by
  induction s using induct generalizing s' with
  | expr value =>
    cases s' with
    | expr value' =>
      have hvalue : value.datum = value'.datum := by simpa [datum] using h
      rw [withOneNaN, withOneNaN, Expr.withOneNaN_eq hvalue]
    | _ => simp [datum] at h
  | assign targets value =>
    cases s' with
    | assign targets' value' =>
      obtain ⟨htargets, hvalue⟩ : targets.map Expr.datum = targets'.map Expr.datum ∧ value.datum = value'.datum := by
        simpa [datum] using h
      rw [withOneNaN, withOneNaN, map_eq_of_map_eq (fun e _ e' ↦ Expr.withOneNaN_eq) htargets,
        Expr.withOneNaN_eq hvalue]
    | _ => simp [datum] at h
  | imports names =>
    cases s' with
    | imports names' =>
      have hnames : names.map Alias.datum = names'.map Alias.datum := by simpa [datum] using h
      rw [List.map_injective_iff.mpr Alias.datum_injective hnames]
    | _ => simp [datum] at h
  | ifElse test body orelse ihb iho =>
    cases s' with
    | ifElse test' body' orelse' =>
      obtain ⟨htest, hbody, horelse⟩ : test.datum = test'.datum ∧ body.map datum = body'.map datum ∧
          orelse.map datum = orelse'.map datum := by simpa [datum] using h
      simp only [withOneNaN, Expr.withOneNaN_eq htest, allWithOneNaN_eq_map,
        map_eq_of_map_eq (fun s hs s' ↦ ihb s hs) hbody, map_eq_of_map_eq (fun s hs s' ↦ iho s hs) horelse]
    | _ => simp [datum] at h

theorem datum_withOneNaN (s : Stmt) : s.withOneNaN.datum = s.datum := by
  induction s using induct with
  | expr value => simp only [withOneNaN, datum, value.datum_withOneNaN]
  | assign targets value =>
    have htargets := map_map_eq (l := targets) fun e _ ↦ e.datum_withOneNaN
    simp only [withOneNaN, datum, value.datum_withOneNaN, htargets]
  | imports names => rfl
  | ifElse test body orelse ihb iho =>
    simp only [withOneNaN, datum, test.datum_withOneNaN, data_eq_map, allWithOneNaN_eq_map, map_map_eq ihb,
      map_map_eq iho]

end Stmt

namespace Module

def datum (m : Module) : Datum :=
  .record "Module" [("body", .list (m.body.map Stmt.datum)), ("type_ignores", .list [])]

theorem text_datum (m : Module) : m.datum.text = m.dump := by
  have hbody := Datum.texts_map (l := m.body) fun s _ ↦ s.text_datum
  have hnone : listText [] = "[]" := rfl
  simp only [datum, dump, Datum.text, Datum.fieldTexts, Datum.texts, hbody, hnone]

theorem regular_datum (m : Module) : m.datum.Regular := by
  have hbody := Datum.Regular.map (l := m.body) fun s _ ↦ s.regular_datum
  have hnone : (Datum.list []).Regular := .list (by simp)
  exact .record rfl (by simp; decide) (by simp [hbody, hnone])

/-- Modules of one dump differ at most in the bits of their NaNs. -/
theorem dump_eq_iff (m₁ m₂ : Module) : m₁.dump = m₂.dump ↔ m₁.withOneNaN = m₂.withOneNaN := by
  rw [← text_datum, ← text_datum]
  constructor
  · intro h
    have hbody : m₁.body.map Stmt.datum = m₂.body.map Stmt.datum := by
      simpa [datum] using Datum.eq_of_text_eq m₁.regular_datum m₂.regular_datum h
    exact congrArg Module.mk (map_eq_of_map_eq (fun s _ s' ↦ Stmt.withOneNaN_eq) hbody)
  · intro h
    have hdatum : ∀ m : Module, m.withOneNaN.datum = m.datum := fun m ↦ by
      simp [datum, withOneNaN, Stmt.datum_withOneNaN]
    rw [← hdatum m₁, h, hdatum m₂]

end Module

end MacroLisp.Host
