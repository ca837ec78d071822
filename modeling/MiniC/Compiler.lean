import MiniC.Definition.Lower
import MiniC.Definition.Parser

/-!
# The compiler

A compiler lowers definitions one after the other and remembers their signatures. A definition that
fails keeps its signature.
-/

namespace MiniC

structure Compiler where
  functions : FunctionTable := {}
  options : Options := {}

/-- The outcome of a request to the compiler: a result, the compiler afterwards, and what was
reported on the way, the oldest first. -/
structure Run (α : Type) where
  result : Except CompileError α
  compiler : Compiler
  log : List Event

namespace Compiler

/-- Registers a definition and lowers it. -/
def lowerDefinition (c : Compiler) (d : Definition) : Run Segment :=
  let announced := Event.lowering d.name d.signature
  match c.functions.register d.name d.signature with
  | .error e => ⟨.error (.scope e), c, [announced]⟩
  | .ok functions =>
    let (result, log) := d.lower functions c.options
    ⟨result, { c with functions }, announced :: log⟩

/-- The tokens read ahead while parsing went from `before` to `after`. -/
def tokensRead (before after : TokenStream) : List Event :=
  (before.readAhead (before.pending.length - after.pending.length)).map .token

/-- Lowers definition after definition up to the end of the file or the first error; `n` bounds
their number. -/
def compileFrom : (n : Nat) → Compiler → TokenStream → Run (List Segment)
  | 0, c, _ => ⟨.ok [], c, []⟩
  | n + 1, c, s =>
    if s.atEnd then ⟨.ok [], c, []⟩
    else
      match Parser.definition s with
      | .error e s' => ⟨.error (.parse e), c, tokensRead s s'⟩
      | .ok d s' =>
        let first := c.lowerDefinition d
        let log := tokensRead s s' ++ .parsed d.name d.params.length :: first.log
        match first.result with
        | .error e => ⟨.error e, first.compiler, log⟩
        | .ok segment =>
          let more := compileFrom n first.compiler s'
          ⟨more.result.map (segment :: ·), more.compiler, log ++ more.log⟩

/-- Compiles a source text, each definition as soon as it is parsed. -/
def compile (c : Compiler) (source : String) : Run (List Segment) :=
  let s := TokenStream.ofText source
  let run := compileFrom s.pending.length c s
  { run with log := s.window.map .token ++ run.log }

end Compiler

/-- The code of a source text. -/
def compileSource (options : Options) (source : String) : Except CompileError (List Segment) :=
  (Compiler.compile { options } source).result

end MiniC
