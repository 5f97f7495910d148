import ProtoSchema.Node.Basic
import ProtoSchema.Schema.Header
import ProtoSchema.Statement.Parse

/-!
# Statements about the file

The version of the language, an import and the package, each on one line up to its semicolon.
-/

namespace ProtoSchema.Parse

/-- Reads `syntax = "version";` with a version of the language. -/
def version : Parse Node := do
  let keyword ← expect (.word "syntax")
  let _ ← expect (.mark .equals)
  let literal ← expect .versionText
  let text := literal.literalText
  require (Version.ofText? text).isSome (.unknownVersion text) literal
  let _ ← expect (.mark .semicolon)
  return ⟨.version, keyword.lexeme, [.leaf .stringLiteral text]⟩

/-- Reads `import "path";` with an optional modifier before the path. -/
def importFile : Parse Node := do
  let keyword ← expect (.word "import")
  let modifier ← accept? fun token => (ImportModifier.ofText? token.lexeme).isSome
  let path ← expect .importPath
  let _ ← expect (.mark .semicolon)
  let modifiers := modifier.toList.map fun token => Node.leaf .importModifier token.lexeme
  return ⟨.importFile, keyword.lexeme, modifiers ++ [.leaf .stringLiteral path.literalText]⟩

/-- Reads `package path;`. -/
def package : Parse Node := do
  let keyword ← expect (.word "package")
  let name ← expect .packageName
  let _ ← expect (.mark .semicolon)
  return ⟨.package, keyword.lexeme, [.leaf .identifier name.lexeme]⟩

instance : Consumes version := by unfold version; infer_instance

instance : Consumes importFile := by unfold importFile; infer_instance

instance : Consumes package := by unfold package; infer_instance

end ProtoSchema.Parse
