import MiniC.Expr.Printer
import MiniC.Stmt

/-!
# Text of statements

A statement is written on one line.
-/

namespace MiniC

def Declarator.text (d : Declarator) : String :=
  match d.initializer with
  | some e => d.name ++ " = " ++ e.text
  | none => d.name

namespace Stmt

/-- A declaration names its type once, that of its first variable; an empty one reads as `int`. -/
def declarationText (ds : List Declarator) : String :=
  (ds.head?.map fun d => d.ty.sourceName).getD "int" ++ " " ++
    String.intercalate ", " (ds.map Declarator.text) ++ ";"

/-- An optional part of a loop header, behind a blank. -/
def headerText : Option Expr → String
  | some e => " " ++ e.text
  | none => ""

mutual

def text : Stmt → String
  | .expression e => e.text ++ ";"
  | .declaration ds => declarationText ds
  | .compound body => "\x7b" ++ listText body ++ " \x7d"
  | .ifElse condition onTrue none => "if (" ++ condition.text ++ ") " ++ onTrue.text
  | .ifElse condition onTrue (some onFalse) =>
    "if (" ++ condition.text ++ ") " ++ onTrue.text ++ " else " ++ onFalse.text
  | .whileLoop condition body => "while (" ++ condition.text ++ ") " ++ body.text
  | .forLoop none condition step body =>
    "for (;" ++ headerText condition ++ ";" ++ headerText step ++ ") " ++ body.text
  | .forLoop (some init) condition step body =>
    "for (" ++ init.text ++ headerText condition ++ ";" ++ headerText step ++ ") " ++ body.text
  | .ret (some e) => "return " ++ e.text ++ ";"
  | .ret none => "return;"
  | .brk => "break;"
  | .cont => "continue;"

/-- The texts of statements, each behind a blank. -/
def listText : List Stmt → String
  | [] => ""
  | s :: rest => " " ++ s.text ++ listText rest

end

end Stmt

end MiniC
