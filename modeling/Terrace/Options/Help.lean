/-
# The help text

What the command line program says about itself.

Key definitions: `helpText`.
-/
import Terrace.Text.Bytes

namespace Terrace

/-- The lines of the help text. -/
def helpLines : List String := [
  "pebble - indented language compiler",
  "",
  "Usage:",
  "  pebble [options] <source> [manifest]",
  "  pebble --check <directory>",
  "",
  "Arguments:",
  "  source        コンパイルするソースファイル（.peb, .txt）",
  "  manifest      6502ターゲットで同梱するファイルの一覧（省略可）",
  "                各行: [ソース] オブジェクト ロードアドレス 実行アドレス",
  "",
  "Options:",
  "  -t, --target <target>       ターゲット: vm, 6502（デフォルト: vm）",
  "  -o, --output <file>         生成したコードを書き出す（6502のデフォルト: program.oph）",
  "  -d, --debug                 リスティング、シンボル、命令の使用頻度を表示",
  "  --color                     リスティングを色付きで表示",
  "  -r, --run                   VMで実行して最後のスタックを表示",
  "  -i, --interactive           システムコールの結果を標準入力から読む",
  "  -I <dir>                    includeの検索ディレクトリ",
  "  -base <addr>                ロードアドレス（例: 0x1900）",
  "  -routines <file>            6502ランタイムのルーチンライブラリ（.oph）",
  "  --check <dir>               ディレクトリ内のサンプルを一括コンパイル",
  "                              名前が\"fail\"で終わるファイルは失敗が期待される",
  "  --timeout <seconds>         実行のタイムアウト（デフォルト: 無制限）",
  "  --steps <n>                 実行する命令数の上限（デフォルト: 無制限）",
  "  -l, --log-level <level>     ログレベル: debug, info, warn, error（デフォルト: info）",
  "  -h, --help                  このヘルプを表示",
  "",
  "Environment Variables:",
  "  LOG_LEVEL=<level>           ログレベル",
  "  PEBBLE_INCLUDE=<dir>        includeの検索ディレクトリ",
  "  TIMEOUT=<seconds>           実行のタイムアウト（秒）",
  "",
  "Examples:",
  "  pebble -r Examples/loop.txt             VMで実行",
  "  pebble -d -o loop.bin Examples/loop.txt リスティングを表示してバイトコードを保存",
  "  pebble -t 6502 -routines routines.oph game.peb manifest.txt",
  "  pebble --check Examples                 サンプルを一括チェック"]

/-- The help text. -/
def helpText : Bytes := helpLines.flatMap fun line => Bytes.ofString line ++ "\n"

end Terrace
