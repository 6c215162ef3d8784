import CommitSplit.Language

/-!
# Kinds of files

A file is source, asset, configuration or something else. The language decides first, then the
extension without regard to its case, then the name.
-/

namespace CommitSplit

inductive NodeKind
  | source | asset | config | other
  deriving DecidableEq, Inhabited

namespace NodeKind

def all : List NodeKind :=
  [source, asset, config, other]

def name : NodeKind → String
  | source => "source"
  | asset => "asset"
  | config => "config"
  | other => "other"

def assetExtensions : List String :=
  ["png", "jpg", "jpeg", "gif", "svg", "ico", "webp", "bmp", "woff", "woff2", "ttf", "otf", "eot",
    "mp3", "mp4", "wav", "webm", "pdf"]

def configExtensions : List String :=
  ["ini", "cfg", "conf", "env", "lock", "properties"]

def configNames : List String :=
  ["Makefile", "Dockerfile", ".gitignore", ".npmrc", ".nvmrc"]

/-- The letters A to Z in lower case, all else unchanged. -/
def lowerAscii (s : String) : String :=
  String.ofList (s.toList.map Char.toLower)

/-- Whether a name is that of a configuration file: a known one, an environment file, or a hidden
file that ends in `rc`. -/
def isConfigName (name : String) : Bool :=
  name ∈ configNames || ".env".toList.isPrefixOf name.toList ||
    (['.'].isPrefixOf name.toList && "rc".toList.isSuffixOf name.toList)

/-- The kind of a file that no language decides. -/
def ofName (name : String) (extension : Option String) : NodeKind :=
  if (extension.map lowerAscii).any (· ∈ assetExtensions) then asset
  else if (extension.map lowerAscii).any (· ∈ configExtensions) then config
  else if isConfigName name then config
  else other

/-- The kind of a file. -/
def ofPath (path : String) : NodeKind :=
  match Language.ofPath path with
  | .yaml | .toml | .json | .dockerfile => config
  | .css | .html => asset
  | language =>
    if language.isSource then source
    else ofName ((Path.name? path).getD "") (Path.extension? path)

end NodeKind

end CommitSplit
