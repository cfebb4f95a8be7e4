import J4DmenuDesktop.Shell.Words
import J4DmenuDesktop.CMDLineAssembler.SqQuote
import J4DmenuDesktop.Shell.Expand
import J4DmenuDesktop.CMDLineAssembler.ExecKey
import J4DmenuDesktop.CMDLineAssembler.ExecQuirks
import J4DmenuDesktop.CMDLineAssembler.ExecGrammar
import J4DmenuDesktop.CMDLineAssembler.ExecQuote
import J4DmenuDesktop.CMDLineAssembler.ExecErrors
import J4DmenuDesktop.Main.NameMap
import J4DmenuDesktop.Main.Lookup
import J4DmenuDesktop.Main.Dmenu
import J4DmenuDesktop.Main.ExecuteApp
import J4DmenuDesktop.Catalog.AppManager
import J4DmenuDesktop.Main.WaitOn
import J4DmenuDesktop.Main.Options
