import Libide.Ctags.Walk
import Libide.Ctags.Termination
import Libide.Ctags.Preorder
import Libide.Ctags.Failure
import Libide.Ctags.Service
import Libide.Ctags.Miner
import Libide.Symbols.Variant
import Libide.Symbols.Refcount
import Libide.Gui.CancelAction
import Libide.Core.Settings
import Libide.Gui.Plugins
import Libide.Gui.PluginPaths
import Libide.Core.SettingsActions
import Libide.Gui.PluginLoading
import Libide.Terminal.PreferencesAddin
import Libide.Tweaks.Properties
