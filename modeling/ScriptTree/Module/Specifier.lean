import ScriptTree.Module.Format
import ScriptTree.Path.Normal

/-!
# Specifiers

A **specifier** is the text by which a script names another module. One that starts with a dot or a
slash is *internal*: it names a file of the project. Modules of the host are *built in*. Anything
else names an installed package.
-/

namespace ScriptTree

/-- Modules of the host that are known by their plain names. -/
def builtinModules : List Text :=
  (["_http_agent", "_http_client", "_http_common", "_http_incoming", "_http_outgoing",
    "_http_server", "_stream_duplex", "_stream_passthrough", "_stream_readable",
    "_stream_transform", "_stream_wrap", "_stream_writable", "_tls_common", "_tls_wrap",
    "assert", "assert/strict", "async_hooks", "buffer", "child_process", "cluster",
    "console", "constants", "crypto", "dgram", "diagnostics_channel", "dns",
    "dns/promises", "domain", "events", "fs", "fs/promises", "http", "http2", "https",
    "inspector", "inspector/promises", "module", "net", "os", "path", "path/posix",
    "path/win32", "perf_hooks", "process", "punycode", "querystring", "readline",
    "readline/promises", "repl", "stream", "stream/consumers", "stream/promises",
    "stream/web", "string_decoder", "sys", "timers", "timers/promises", "tls",
    "trace_events", "tty", "url", "util", "util/types", "v8", "vm", "wasi",
    "worker_threads", "zlib"] : List String).map Text.ofString

/-- Whether a specifier names a module of the **host**. -/
def isBuiltin (specifier : Text) : Bool :=
  specifier.startsWith "node:" || builtinModules.contains specifier

/-- Whether a specifier names a file of the **project**. -/
def isInternal (specifier : Text) : Bool := specifier.startsWith "." || specifier.startsWith "/"

/-- The **path** that an internal specifier names in a file of some directory. -/
def dependencyPath (directory : Path) (specifier : Text) : Path :=
  (directory.join (Path.ofText specifier)).normal

/-- The part of a specifier after its last slash. -/
def lastPiece (specifier : Text) : Text :=
  (specifier.reverse.takeWhile (· ≠ .scalar '/')).reverse

/-- The extension of a specifier: what starts at the last dot of its last piece, if something other
than dots stands before that. -/
def extensionOf (specifier : Text) : Text :=
  let piece := lastPiece specifier
  match Path.lastDot? piece with
  | some i => if (piece.take i).all (· = .scalar '.') then [] else piece.drop i
  | none => []

/-- An internal specifier with the **extension** of a format put on unless it is there. -/
def ensureExtension (specifier : Text) (format : Format) : Text :=
  if !isInternal specifier || extensionOf specifier = format.extension then specifier
  else specifier ++ format.extension

end ScriptTree
