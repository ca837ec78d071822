import Mathlib.Tactic.Common
import MiniC.Decimal.Numeral
import MiniC.Definition
import MiniC.Token

/-!
# The grammar

Phrases are derived from lists of tokens together with the trees that they stand for. The grammar of
expressions is layered by precedence: each tier of operators joins operands of the next tighter
level from the left, a conditional joins from the right, and an assignment is the loosest.

An `else` behind two open `if`s can be derived for either of them. The grammar has a switch for
this: `nearest` admits only derivations in which every `else` belongs to the nearest `if`.
-/

namespace MiniC

/-- Whether a statement ends with an `if` that an `else` behind it would belong to. -/
def Stmt.endsOpen : Stmt → Bool
  | .ifElse _ _ none => true
  | .ifElse _ _ (some onFalse) => onFalse.endsOpen
  | .whileLoop _ body => body.endsOpen
  | .forLoop _ _ _ body => body.endsOpen
  | _ => false

namespace Grammar

section

variable {α : Type} (item : List Token → α → Prop)

/-- `[item]` -/
inductive Optional : List Token → Option α → Prop where
  | none : Optional [] none
  | some {ts : List Token} {a : α} (h : item ts a) : Optional ts (some a)

/-- `item*` -/
inductive Sequence : List Token → List α → Prop where
  | nil : Sequence [] []
  | cons {ts us : List Token} {a : α} {as : List α} (h : item ts a) (hrest : Sequence us as) :
      Sequence (ts ++ us) (a :: as)

/-- `item {, item}` -/
inductive CommaSeparated : List Token → List α → Prop where
  | single {ts : List Token} {a : α} (h : item ts a) : CommaSeparated ts [a]
  | cons {ts us : List Token} {comma : Token} {a : α} {as : List α} (h : item ts a)
      (hcomma : comma.kind = .symbol .comma) (hrest : CommaSeparated us as) :
      CommaSeparated (ts ++ comma :: us) (a :: as)

end

/-- The tiers of left-associative operators, the tightest first. -/
inductive Tier where
  | multiplicative
  | additive
  | comparison
  | conjunction
  | disjunction

/-- The levels of expressions. -/
inductive Level where
  | primary
  | increment
  | tier (tier : Tier)
  | conditional
  | expression

/-- The level of the operands of a tier. -/
def Tier.operand : Tier → Level
  | .multiplicative => .increment
  | .additive => .tier .multiplicative
  | .comparison => .tier .additive
  | .conjunction => .tier .comparison
  | .disjunction => .tier .conjunction

/-- What stands for an expression where a condition is asked for: the expression itself, if it is
boolean by its form, and else a cast of it. -/
inductive Test : Expr → Expr → Prop where
  | kept {e : Expr} (h : e.isBoolean = true) : Test e e
  | cast {e : Expr} (h : e.isBoolean = false) : Test e (.boolCast e)

/-- The number that a float literal stands for. Its digits in front are the whole part, and those
behind the point that ends them the fraction. -/
inductive Decimal : List Char → Binary64 → Prop where
  | mk {whole rest : List Char} (hwhole : ∀ c ∈ whole, c.isDigit = true)
      (hrest : ∀ c ∈ rest.head?, c.isDigit = false) :
      Decimal (whole ++ rest) (.ofDecimal whole rest.tail)

/-- What an operator of a tier makes of its operands. -/
inductive Joined (left right : Expr) : Tier → Symbol → Expr → Prop where
  | mul : Joined left right .multiplicative .star (.arith .mul left right)
  | div : Joined left right .multiplicative .slash (.arith .div left right)
  | rem : Joined left right .multiplicative .percent (.arith .rem left right)
  | add : Joined left right .additive .plus (.arith .add left right)
  | sub : Joined left right .additive .minus (.arith .sub left right)
  | less : Joined left right .comparison .less (.compare .less left right)
  | lessEqual : Joined left right .comparison .lessEqual (.compare .lessEqual left right)
  | greater : Joined left right .comparison .greater (.compare .greater left right)
  | greaterEqual : Joined left right .comparison .greaterEqual (.compare .greaterEqual left right)
  | equal : Joined left right .comparison .equalEqual (.compare .equal left right)
  | notEqual : Joined left right .comparison .bangEqual (.compare .notEqual left right)
  | and {l r : Expr} (hl : Test left l) (hr : Test right r) :
      Joined left right .conjunction .ampAmp (.logicalAnd l r)
  | or {l r : Expr} (hl : Test left l) (hr : Test right r) :
      Joined left right .disjunction .pipePipe (.logicalOr l r)

/-- The operators that change a variable by one. -/
inductive Increment : Symbol → Int → Prop where
  | up : Increment .plusPlus 1
  | down : Increment .minusMinus (-1)

/-- What an assignment operator with right side `rhs` stores in a variable. A compound operator
stands for an operation on the variable itself. -/
inductive Stored (target : String) (rhs : Expr) : Symbol → Expr → Prop where
  | plain : Stored target rhs .equal rhs
  | add : Stored target rhs .plusEqual (.arith .add (.var target) rhs)
  | sub : Stored target rhs .minusEqual (.arith .sub (.var target) rhs)
  | mul : Stored target rhs .starEqual (.arith .mul (.var target) rhs)
  | div : Stored target rhs .slashEqual (.arith .div (.var target) rhs)

/-- Expressions by level. An integer literal has 31 bits. -/
inductive Derives : Level → List Token → Expr → Prop where
  | int {t : Token} (ht : t.kind = .intLiteral)
      (hvalue : natOfDigits t.lexeme.toList ≤ 2147483647) :
      Derives .primary [t] (.int (natOfDigits t.lexeme.toList))
  | float {t : Token} {x : Binary64} (ht : t.kind = .floatLiteral)
      (hvalue : Decimal t.lexeme.toList x) : Derives .primary [t] (.float x)
  | var {t : Token} (ht : t.kind = .identifier) : Derives .primary [t] (.var t.lexeme)
  | call {t l r : Token} {ts : List Token} {arguments : Option (List Expr)}
      (ht : t.kind = .identifier) (hl : l.kind = .symbol .leftParen)
      (harguments : Optional (CommaSeparated (Derives .expression)) ts arguments)
      (hr : r.kind = .symbol .rightParen) :
      Derives .primary (t :: l :: (ts ++ [r])) (.call t.lexeme (arguments.getD []))
  | parenthesized {l r : Token} {ts : List Token} {e : Expr} (hl : l.kind = .symbol .leftParen)
      (he : Derives .expression ts e) (hr : r.kind = .symbol .rightParen) :
      Derives .primary (l :: (ts ++ [r])) e
  | primary {ts : List Token} {e : Expr} (h : Derives .primary ts e) : Derives .increment ts e
  | preIncrement {o t : Token} {s : Symbol} {delta : Int} (ho : o.kind = .symbol s)
      (hs : Increment s delta) (ht : t.kind = .identifier) :
      Derives .increment [o, t] (.preIncrement t.lexeme delta)
  | postIncrement {t o : Token} {s : Symbol} {delta : Int} (ht : t.kind = .identifier)
      (ho : o.kind = .symbol s) (hs : Increment s delta) :
      Derives .increment [t, o] (.postIncrement t.lexeme delta)
  | operand {tier : Tier} {ts : List Token} {e : Expr} (h : Derives tier.operand ts e) :
      Derives (.tier tier) ts e
  | binary {tier : Tier} {ts us : List Token} {o : Token} {s : Symbol} {left right e : Expr}
      (hleft : Derives (.tier tier) ts left) (ho : o.kind = .symbol s)
      (hright : Derives tier.operand us right) (hs : Joined left right tier s e) :
      Derives (.tier tier) (ts ++ o :: us) e
  | disjunction {ts : List Token} {e : Expr} (h : Derives (.tier .disjunction) ts e) :
      Derives .conditional ts e
  | conditional {cs ts us : List Token} {q c : Token} {e condition onTrue onFalse : Expr}
      (he : Derives (.tier .disjunction) cs e) (hcondition : Test e condition)
      (hq : q.kind = .symbol .question) (htrue : Derives .expression ts onTrue)
      (hc : c.kind = .symbol .colon) (hfalse : Derives .conditional us onFalse) :
      Derives .conditional (cs ++ q :: (ts ++ c :: us)) (.conditional condition onTrue onFalse)
  | unassigned {ts : List Token} {e : Expr} (h : Derives .conditional ts e) :
      Derives .expression ts e
  | assignment {t o : Token} {s : Symbol} {ts : List Token} {rhs value : Expr}
      (ht : t.kind = .identifier) (ho : o.kind = .symbol s) (hs : Stored t.lexeme rhs s value)
      (h : Derives .expression ts rhs) :
      Derives .expression (t :: o :: ts) (.assign t.lexeme value)

/-- `id [= expr]` for a variable, which is not of type `void` -/
inductive Declares (ty : Ty) : List Token → Declarator → Prop where
  | plain {t : Token} (ht : t.kind = .identifier) (hty : ty ≠ .void) :
      Declares ty [t] ⟨t.lexeme, ty, none⟩
  | initialized {t o : Token} {ts : List Token} {e : Expr} (ht : t.kind = .identifier)
      (hty : ty ≠ .void) (ho : o.kind = .symbol .equal) (h : Derives .expression ts e) :
      Declares ty (t :: o :: ts) ⟨t.lexeme, ty, some e⟩

/-- `type id [= expr] {, id [= expr]} ;` -/
inductive Declaration : List Token → Stmt → Prop where
  | mk {t semicolon : Token} {ty : Ty} {ts : List Token} {ds : List Declarator}
      (ht : t.kind.toTy? = some ty) (hds : CommaSeparated (Declares ty) ts ds)
      (hsemicolon : semicolon.kind = .symbol .semicolon) :
      Declaration (t :: (ts ++ [semicolon])) (.declaration ds)

/-- `expr ;` -/
inductive ExpressionStatement : List Token → Stmt → Prop where
  | mk {semicolon : Token} {ts : List Token} {e : Expr} (h : Derives .expression ts e)
      (hsemicolon : semicolon.kind = .symbol .semicolon) :
      ExpressionStatement (ts ++ [semicolon]) (.expression e)

/-- The first part of a loop header: `; | decl | expr ;` -/
inductive LoopStart : List Token → Option Stmt → Prop where
  | empty {semicolon : Token} (hsemicolon : semicolon.kind = .symbol .semicolon) :
      LoopStart [semicolon] none
  | declaration {ts : List Token} {s : Stmt} (h : Declaration ts s) : LoopStart ts (some s)
  | expression {ts : List Token} {s : Stmt} (h : ExpressionStatement ts s) : LoopStart ts (some s)

/-- `expr` as a condition -/
inductive Tested : List Token → Expr → Prop where
  | mk {ts : List Token} {e condition : Expr} (h : Derives .expression ts e)
      (hcondition : Test e condition) : Tested ts condition

/-- `( expr )` as a condition -/
inductive Condition : List Token → Expr → Prop where
  | mk {l r : Token} {ts : List Token} {condition : Expr} (hl : l.kind = .symbol .leftParen)
      (h : Tested ts condition) (hr : r.kind = .symbol .rightParen) :
      Condition (l :: (ts ++ [r])) condition

/-- Statements. With `nearest`, what stands in front of an `else` leaves no nearer `if` open. -/
inductive Statement (nearest : Bool) : List Token → Stmt → Prop where
  | declaration {ts : List Token} {s : Stmt} (h : Declaration ts s) : Statement nearest ts s
  | expression {ts : List Token} {s : Stmt} (h : ExpressionStatement ts s) : Statement nearest ts s
  | block {l r : Token} {ts : List Token} {body : List Stmt} (hl : l.kind = .symbol .leftBrace)
      (hbody : Sequence (Statement nearest) ts body) (hr : r.kind = .symbol .rightBrace) :
      Statement nearest (l :: (ts ++ [r])) (.compound body)
  | ifThen {k : Token} {cs ts : List Token} {condition : Expr} {onTrue : Stmt}
      (hk : k.kind = .keyword .ifKw) (hcondition : Condition cs condition)
      (htrue : Statement nearest ts onTrue) :
      Statement nearest (k :: (cs ++ ts)) (.ifElse condition onTrue none)
  | ifElse {k l : Token} {cs ts us : List Token} {condition : Expr} {onTrue onFalse : Stmt}
      (hk : k.kind = .keyword .ifKw) (hcondition : Condition cs condition)
      (htrue : Statement nearest ts onTrue) (hl : l.kind = .keyword .elseKw)
      (hnearest : nearest = true → onTrue.endsOpen = false)
      (hfalse : Statement nearest us onFalse) :
      Statement nearest (k :: (cs ++ (ts ++ l :: us))) (.ifElse condition onTrue (some onFalse))
  | whileLoop {k : Token} {cs ts : List Token} {condition : Expr} {body : Stmt}
      (hk : k.kind = .keyword .whileKw) (hcondition : Condition cs condition)
      (hbody : Statement nearest ts body) :
      Statement nearest (k :: (cs ++ ts)) (.whileLoop condition body)
  | forLoop {k l semicolon r : Token} {is cs ss ts : List Token} {init : Option Stmt}
      {condition step : Option Expr} {body : Stmt} (hk : k.kind = .keyword .forKw)
      (hl : l.kind = .symbol .leftParen) (hinit : LoopStart is init)
      (hcondition : Optional Tested cs condition)
      (hsemicolon : semicolon.kind = .symbol .semicolon)
      (hstep : Optional (Derives .expression) ss step) (hr : r.kind = .symbol .rightParen)
      (hbody : Statement nearest ts body) :
      Statement nearest (k :: l :: (is ++ (cs ++ semicolon :: (ss ++ r :: ts))))
        (.forLoop init condition step body)
  | ret {k semicolon : Token} {ts : List Token} {value : Option Expr}
      (hk : k.kind = .keyword .returnKw) (hvalue : Optional (Derives .expression) ts value)
      (hsemicolon : semicolon.kind = .symbol .semicolon) :
      Statement nearest (k :: (ts ++ [semicolon])) (.ret value)
  | brk {k semicolon : Token} (hk : k.kind = .keyword .breakKw)
      (hsemicolon : semicolon.kind = .symbol .semicolon) : Statement nearest [k, semicolon] .brk
  | cont {k semicolon : Token} (hk : k.kind = .keyword .continueKw)
      (hsemicolon : semicolon.kind = .symbol .semicolon) : Statement nearest [k, semicolon] .cont

/-- `type id` for a parameter, which is not of type `void` -/
inductive Parameter : List Token → Param → Prop where
  | mk {t name : Token} {ty : Ty} (ht : t.kind.toTy? = some ty) (hty : ty ≠ .void)
      (hname : name.kind = .identifier) : Parameter [t, name] ⟨name.lexeme, ty⟩

/-- `type id ( [type id {, type id}] ) block` -/
inductive Defines (nearest : Bool) : List Token → Definition → Prop where
  | mk {t name l r lb rb : Token} {ty : Ty} {ps ts : List Token} {params : Option (List Param)}
      {body : List Stmt} (ht : t.kind.toTy? = some ty) (hname : name.kind = .identifier)
      (hl : l.kind = .symbol .leftParen)
      (hparams : Optional (CommaSeparated Parameter) ps params)
      (hr : r.kind = .symbol .rightParen) (hlb : lb.kind = .symbol .leftBrace)
      (hbody : Sequence (Statement nearest) ts body) (hrb : rb.kind = .symbol .rightBrace) :
      Defines nearest (t :: name :: l :: (ps ++ r :: lb :: (ts ++ [rb])))
        ⟨name.lexeme, ty, params.getD [], body⟩

/-- Whole programs. -/
def Program (nearest : Bool) : List Token → List Definition → Prop := Sequence (Defines nearest)

end Grammar

end MiniC
